import FalconLedger.Properties.KeyBlobs
import FalconLedger.Properties.Slashing
import FalconLedger.Protocol.STValidation

/-!
# The evidence of a conviction

A validator loses its bond on two blobs that anyone may submit. What a slash that succeeds says
about them is followed back to the bytes: both are validations that its consensus key has signed, of
one sequence number and of different ledgers (`slash_sound`).
-/

namespace FalconLedger

open Transactor

variable {H : Services} {s : Ledger} {tx : STTx} {C : ValidationCodec} {V : Verifiers}

/-! ### Signatures -/

theorem isFalconSigningKey_iff {key : Blob} : isFalconSigningKey key = true ↔ FalconPrefixed key := by
  rw [← publicKeyType_isFalcon, isFalconSigningKey, signingPubKeyType_eq]
  cases publicKeyType key <;> rfl

theorem falcon_of_verify {key m sig : Blob} (hfalcon : FalconPrefixed key)
    (h : verify V key m sig = true) :
    ∃ k, PQPublicKey.ofSlice key = .ok k ∧ V.falcon k m sig = true := by
  rw [verify, if_pos (pqPublicKeyType_isSome.mpr hfalcon), verifyFalcon] at h
  cases hkey : PQPublicKey.ofSlice key with
  | ok k => exact ⟨k, rfl, by rwa [hkey] at h⟩
  | error message =>
    rw [hkey] at h
    cases h

/-- The bytes are a validation that the key has signed, for a ledger sequence and a ledger. -/
structure SignedValidation (C : ValidationCodec) (Genuine : PQPublicKey → Blob → Blob → Prop)
    (blob : Blob) (key : PQPublicKey) (obj : C.Object) : Prop where
  parses : C.read blob = some obj
  signer : C.signingPubKey obj = key.blob
  genuine : Genuine key (STValidation.signedBytes C obj) (C.signature obj)

theorem PQPublicKey.blob_of_ofSlice {key : Blob} {k : PQPublicKey}
    (h : PQPublicKey.ofSlice key = .ok k) : k.blob = key := by
  rw [PQPublicKey.ofSlice] at h
  split_ifs at h <;> cases h <;> rfl

theorem signedValidation_of_evidence {Genuine : PQPublicKey → Blob → Blob → Prop}
    (hsound : ∀ k m sig, V.falcon k m sig = true → Genuine k m sig) {blob : Blob}
    {val : STValidation} (h : STValidation.evidence C V blob = some val) :
    ∃ obj key, PQPublicKey.ofSlice val.signerPublic = .ok key ∧
      SignedValidation C Genuine blob key obj ∧ val.ledgerSequence = C.ledgerSequence obj ∧
        val.ledgerHash = C.getLedgerHash obj := by
  simp only [STValidation.evidence, STValidation.construct, Option.bind_eq_bind,
    Option.bind_eq_some_iff] at h
  obtain ⟨⟨obj, signer⟩, ⟨obj', hread, signer', hsigner, hbuilt⟩, hval⟩ := h
  have hpair : obj' = obj ∧ signer' = signer := by
    split_ifs at hbuilt
    simpa using hbuilt
  obtain ⟨rfl, rfl⟩ := hpair
  dsimp only at hval
  split_ifs at hval with hvalid
  obtain rfl := Option.some.inj hval
  have hkey : isFalconSigningKey (C.signingPubKey obj') = true ∧
      signer'.slice = C.signingPubKey obj' := by
    rw [STValidation.signingPubKeyOf] at hsigner
    split_ifs at hsigner with hfalcon
    rw [PublicKey.ofSlice?] at hsigner
    split_ifs at hsigner
    exact ⟨hfalcon, by rw [← Option.some.inj hsigner]⟩
  rw [STValidation.isValid, hkey.2, if_pos hkey.1] at hvalid
  obtain ⟨key, hof, hverified⟩ := falcon_of_verify (isFalconSigningKey_iff.mp hkey.1) hvalid
  refine ⟨obj', key, by rw [hkey.2, hof], ⟨hread, ?_, hsound key _ _ hverified⟩, rfl, rfl⟩
  rw [PQPublicKey.blob_of_ofSlice hof]

/-! ### Convictions -/

/-- The five checks, on the bytes. -/
structure DoubleSigned (C : ValidationCodec) (Genuine : PQPublicKey → Blob → Blob → Prop)
    (key : PQPublicKey) (e1 e2 : Blob) (v1 v2 : C.Object) : Prop where
  first : SignedValidation C Genuine e1 key v1
  second : SignedValidation C Genuine e2 key v2
  sequence : C.ledgerSequence v1 = C.ledgerSequence v2
  hash : C.getLedgerHash v1 ≠ C.getLedgerHash v2

theorem doubleSigned_of_verify {Genuine : PQPublicKey → Blob → Blob → Prop}
    (hsound : ∀ k m sig, V.falcon k m sig = true → Genuine k m sig) {e1 e2 : Blob}
    {target : AccountID} {bond : ValidatorBond}
    (h : ValidatorSlash.verifyDoubleSignEvidence (H.withValidations C V) e1 e2 target bond = true) :
    ∃ key v1 v2, PQPublicKey.ofSlice bond.consensusKey = .ok key ∧
      DoubleSigned C Genuine key e1 e2 v1 v2 := by
  have hparse : ∀ {e v}, ValidatorSlash.parseValidationEvidence (H.withValidations C V) e = some v →
      STValidation.evidence C V e = some v := fun {e v} hv => by
    rw [ValidatorSlash.parseValidationEvidence] at hv
    split_ifs at hv
    exact hv
  rw [ValidatorSlash.verifyDoubleSignEvidence] at h
  rcases hv1 : ValidatorSlash.parseValidationEvidence (H.withValidations C V) e1 with _ | v1
  · rw [hv1] at h
    cases h
  rcases hv2 : ValidatorSlash.parseValidationEvidence (H.withValidations C V) e2 with _ | v2
  · rw [hv1, hv2] at h
    cases h
  rw [hv1, hv2] at h
  simp only [Bool.and_eq_true, decide_eq_true_eq] at h
  obtain ⟨⟨⟨⟨⟨-, hsigner⟩, hbond⟩, -⟩, hsequence⟩, hhash⟩ := h
  obtain ⟨o1, k1, hk1, hsigned1, hseq1, hhash1⟩ :=
    signedValidation_of_evidence hsound (hparse hv1)
  obtain ⟨o2, k2, hk2, hsigned2, hseq2, hhash2⟩ :=
    signedValidation_of_evidence hsound (hparse hv2)
  rw [← hsigner, hk1] at hk2
  obtain rfl := Except.ok.inj hk2
  refine ⟨k1, o1, o2, by rw [hbond, hk1], hsigned1, hsigned2, ?_, ?_⟩
  · rw [← hseq1, ← hseq2, hsequence]
  · rw [← hhash1, ← hhash2]
    exact hhash

private theorem Transactor.Outcome.slashed {r : Ledger × Receipt} {target : AccountID}
    {offense : UInt32} {e1 e2 : Option Blob} (h : Outcome H s tx r)
    (hbody : tx.body = .validatorSlash target offense e1 e2) (hok : r.2.succeeded = true) :
    ∃ bond, s.bonds.lookup target = some bond ∧ 0 ≤ bond.bondedAmount ∧
      Slashed s target bond r := by
  obtain ⟨bond, hbond, -, -, hafter⟩ := h.of_slash hbody hok
  have hconserved := h.conserves.2
  have hsucceeded := hok
  simp only [Receipt.succeeded, Bool.and_eq_true, decide_eq_true_eq] at hok
  cases h with
  | unapplied => cases hok.1
  | @feeOnly view feeIn fee ter hreset hpass htec =>
    have hter : ter = .tesSuccess := hok.2
    rw [hter] at htec
    cases htec
  | @success s₁ a hflight hclaim hcharge happly hpass =>
    have hcharged := charge_ok hcharge (account_ne_none_of_preclaim hclaim)
    simp only [doApply, hbody] at happly
    obtain ⟨bond', hbond', rfl⟩ := ValidatorSlash.doApply_ok happly
    have hnonneg := bondedAmount_nonneg_of_passed hcharged hbond' hpass
    rw [hcharged.same] at hbond'
    obtain rfl := Option.some.inj (hbond.symm.trans hbond')
    have hwhole : (bond.bondedAmount * kSlashDoubleSignBps.toNat).tdiv kBpsDenom.toNat =
        bond.bondedAmount := Int.mul_tdiv_cancel _ (by decide)
    refine ⟨bond, hbond, hnonneg, hsucceeded, ?_, by omega, _, hafter, ?_⟩
    · rw [hwhole]
      exact max_eq_left hnonneg
    · simp only [ValidatorSlash.slashedBond, receipt, max_eq_left hnonneg, sub_self]

/-- There is a bond, both blobs are validations which its consensus key has signed, for one sequence
and different ledgers, and the slash fraction of the bond is burned, which is at most the bond. -/
def SoundConviction (C : ValidationCodec) (Genuine : PQPublicKey → Blob → Blob → Prop) (s : Ledger)
    (target : AccountID) (e1 e2 : Option Blob) (r : Ledger × Receipt) : Prop :=
  ∃ bond b1 b2 key v1 v2, s.bonds.lookup target = some bond ∧ e1 = some b1 ∧ e2 = some b2 ∧
    PQPublicKey.ofSlice bond.consensusKey = .ok key ∧ DoubleSigned C Genuine key b1 b2 v1 v2 ∧
    Slashed s target bond r ∧ r.2.slashed ≤ bond.bondedAmount

/-- **Every slash that succeeds is a sound conviction.** -/
theorem slash_sound (C : ValidationCodec) (V : Verifiers)
    (Genuine : PQPublicKey → Blob → Blob → Prop)
    (hsound : ∀ k m sig, V.falcon k m sig = true → Genuine k m sig) (H : Services)
    (flags : ApplyFlags) (s : Ledger) {tx : STTx} {target : AccountID} {offense : UInt32}
    {e1 e2 : Option Blob} (hbody : tx.body = .validatorSlash target offense e1 e2)
    (hok : (applyTransaction (H.withValidations C V) flags s tx).2.succeeded = true) :
    SoundConviction C Genuine s target e1 e2
      (applyTransaction (H.withValidations C V) flags s tx) := by
  have houtcome := applyTransaction_outcome (H.withValidations C V) flags s tx
  obtain ⟨bond, hbond, -, hverify, -⟩ := houtcome.of_slash hbody hok
  obtain ⟨bond', hbond', hnonneg, hslashed⟩ := houtcome.slashed hbody hok
  obtain rfl := Option.some.inj (hbond.symm.trans hbond')
  obtain ⟨key, v1, v2, hkey, hsigned⟩ := doubleSigned_of_verify hsound hverify
  -- the preflight has seen that both blobs are there
  have hpresent : e1 ≠ none ∧ e2 ≠ none := by
    have hboth := hok
    simp only [Receipt.succeeded, Bool.and_eq_true, decide_eq_true_eq] at hboth
    obtain ⟨_, _, hflight, -⟩ := houtcome.of_success hboth.1 hboth.2
    have hpre := preflight_of_invokePreflight hflight
    simp only [preflight, hbody, ValidatorSlash.preflight, Except.bind_eq_ok, failIf_eq_ok,
      not_or] at hpre
    obtain ⟨-, -, -, -, -, -, -, hnone, -⟩ := hpre
    exact hnone
  obtain ⟨b1, rfl⟩ := Option.ne_none_iff_exists'.mp hpresent.1
  obtain ⟨b2, rfl⟩ := Option.ne_none_iff_exists'.mp hpresent.2
  refine ⟨bond, b1, b2, key, v1, v2, hbond, rfl, rfl, hkey, hsigned, hslashed, ?_⟩
  rw [hslashed.slashed]
  exact (Int.mul_tdiv_cancel bond.bondedAmount (by decide)).le

namespace Sample

def falconKey : Blob := kFalcon512Prefix :: List.replicate kFalcon512PubkeyBytes 0

/-- Validations of ledger 7: a key, the number of a ledger hash and a signature. -/
def validationCodec : ValidationCodec where
  Object := Blob
  read blob := if blob.length = kFalcon512PubkeyBytes + 34 then some blob else none
  signingPubKey := List.take (kFalcon512PubkeyBytes + 1)
  signature := List.drop (kFalcon512PubkeyBytes + 2)
  ledgerSequence _ := 7
  getLedgerHash obj := BitVec.ofNat 256 (number ((obj.drop (kFalcon512PubkeyBytes + 1)).take 1))
  getSigningHash obj := BitVec.ofNat 256 (number ((obj.drop (kFalcon512PubkeyBytes + 1)).take 1))

def verifiers : Verifiers where
  falcon _ m sig := decide (sig = m)
  ed25519 _ _ _ := false
  secp256k1 _ _ _ := false

def signedValidation (n : ℕ) : Blob := falconKey ++ [UInt8.ofNat n] ++ Bytes.toBE 32 n

def falconLedger : Ledger :=
  { idleChain.view with
    bonds := AList.insert (services.calcValidatorBondID falconKey) (bond alice falconKey) ∅ }

def conviction : STTx :=
  ⟨1, bob, none, 10, .seq 1, .validatorSlash (services.calcValidatorBondID falconKey)
    kSlashOffenseDoubleSign (some (signedValidation 1)) (some (signedValidation 2))⟩

end Sample

theorem slash_sound_two_validations :
    (∀ k m sig, Sample.verifiers.falcon k m sig = true → sig = m) ∧
      (applyTransaction (Sample.services.withValidations Sample.validationCodec Sample.verifiers)
        Sample.flags Sample.falconLedger Sample.conviction).2.succeeded = true ∧
      SoundConviction Sample.validationCodec (fun _ m sig => sig = m) Sample.falconLedger
        (Sample.services.calcValidatorBondID Sample.falconKey) (some (Sample.signedValidation 1))
        (some (Sample.signedValidation 2))
        (applyTransaction (Sample.services.withValidations Sample.validationCodec Sample.verifiers)
          Sample.flags Sample.falconLedger Sample.conviction) := by
  have hsound : ∀ k m sig, Sample.verifiers.falcon k m sig = true → sig = m :=
    fun k m sig h => of_decide_eq_true h
  have hok : (applyTransaction
      (Sample.services.withValidations Sample.validationCodec Sample.verifiers)
      Sample.flags Sample.falconLedger Sample.conviction).2.succeeded = true := by decide +kernel
  exact ⟨hsound, hok, slash_sound Sample.validationCodec Sample.verifiers (fun _ m sig => sig = m)
    hsound Sample.services Sample.flags Sample.falconLedger rfl hok⟩

end FalconLedger
