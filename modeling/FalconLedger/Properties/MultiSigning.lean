import FalconLedger.Tx.MultiSign
import Mathlib.Data.List.TakeWhile
import Mathlib.Algebra.Order.BigOperators.Group.List

/-!
# The quorum of a multi-signed transaction

The entries that the walk has passed over belong to no signer that is still to come, since both
sequences are ascending; the entry at which it stands may belong to the last signer only. So the
weights that are added are those of the entries that have a signer, each once.
-/

namespace FalconLedger

namespace MultiSign

/-- A list of signers as it is stored: by account, without repetition, and not too long. -/
structure AsStored (entries : List SignerEntry) : Prop where
  ascending : entries.Pairwise fun a b => a.account.toNat < b.account.toNat
  length_le : entries.length ≤ kMaxMultiSigners

theorem asStored_of_validate {quorum : UInt32} {signers : List SignerEntry} {account : AccountID}
    (hsorted : signers.Pairwise fun a b => a.account.toNat ≤ b.account.toNat)
    (h : validateQuorumAndSignerEntries quorum signers account = .ok ()) : AsStored signers := by
  rw [validateQuorumAndSignerEntries] at h
  simp only [Except.bind_eq_ok, failIf_eq_ok, not_or, not_lt, not_not] at h
  obtain ⟨-, ⟨-, hlength⟩, -, hchain, -⟩ := h
  refine ⟨?_, hlength⟩
  have hlt : signers.IsChain fun a b => a.account.toNat < b.account.toNat := by
    refine List.isChain_iff_getElem.mpr fun i hi => ?_
    have hle := List.isChain_iff_getElem.mp hsorted.isChain i hi
    have hne := List.isChain_iff_getElem.mp hchain i hi
    exact lt_of_le_of_ne hle fun heq => hne (BitVec.eq_of_toNat_eq heq)
  have : IsTrans SignerEntry fun a b => a.account.toNat < b.account.toNat :=
    ⟨fun _ _ _ => lt_trans⟩
  exact List.isChain_iff_pairwise.mp hlt

variable {calcAccountID : Blob → AccountID} {view : SigningView}

/-- The signer may sign for its account: with the master key, which is not disabled, with the
regular key, or for an account that is not in the ledger. -/
def MaySign (calcAccountID : Blob → AccountID) (view : SigningView) (signer : Signer) : Prop :=
  if signingAccount calcAccountID signer = signer.account then
    ∀ root, view.account signer.account = some root → root.disableMaster = false
  else
    ∃ root, view.account signer.account = some root ∧
      root.regularKey = some (signingAccount calcAccountID signer)

/-- The key is a Falcon key, or there is none. -/
def UsableKey (signer : Signer) : Prop :=
  signer.signingPubKey = [] ∨ isFalconSigningKey signer.signingPubKey = true

theorem checkSigner_eq_ok {signer : Signer} {u : Unit} :
    checkSigner calcAccountID view signer = .ok u ↔
      UsableKey signer ∧ MaySign calcAccountID view signer := by
  have hkey : ¬(!signer.signingPubKey.isEmpty && !isFalconSigningKey signer.signingPubKey) = true ↔
      UsableKey signer := by
    rw [UsableKey, Bool.and_eq_true, not_and_or, Bool.not_eq_true', Bool.not_eq_false,
      Bool.not_eq_true', Bool.not_eq_false, List.isEmpty_iff]
  rw [checkSigner, MaySign]
  split_ifs with hsame
  · cases hroot : view.account signer.account with
    | none =>
      simp only [Except.bind_eq_ok, failIf_eq_ok, hkey]
      exact ⟨fun h => ⟨h.choose_spec.1, fun _ hnone => absurd hnone (by simp)⟩,
        fun h => ⟨(), h.1, trivial⟩⟩
    | some root =>
      simp only [Except.bind_eq_ok, failIf_eq_ok, hkey, Bool.not_eq_true, Option.some.injEq,
        forall_eq']
      exact ⟨fun h => h.choose_spec, fun h => ⟨(), h⟩⟩
  · simp only [Except.bind_eq_ok, failIf_eq_ok, hkey, orFail_eq_ok, ne_eq, not_not]
    constructor
    · rintro ⟨-, husable, root, hroot, regularKey, hregular, heq⟩
      exact ⟨husable, root, hroot, heq ▸ hregular⟩
    · rintro ⟨husable, root, hroot, hregular⟩
      exact ⟨(), husable, root, hroot, _, hregular, rfl⟩

/-- The entries that have a signer. -/
def signed (entries : List SignerEntry) (txSigners : List Signer) : List SignerEntry :=
  entries.filter fun entry => entry.account ∈ txSigners.map fun signer => signer.account

/-- The sum of their weights. -/
def signedWeight (entries : List SignerEntry) (txSigners : List Signer) : ℕ :=
  ((signed entries txSigners).map fun entry => entry.weight.toNat).sum

/-- Every signer has an entry, and may sign. -/
def AllListed (calcAccountID : Blob → AccountID) (view : SigningView)
    (entries : List SignerEntry) (txSigners : List Signer) : Prop :=
  ∀ signer ∈ txSigners, (∃ entry ∈ entries, entry.account = signer.account) ∧
    UsableKey signer ∧ MaySign calcAccountID view signer

section Walk

variable {iter rest : List SignerEntry} {entry : SignerEntry} {txSigner : Signer}
  {txSigners : List Signer}

private theorem account_lt_of_dropWhile {account : AccountID}
    (hdrop : (iter.dropWhile fun entry => entry.account < account) = entry :: rest) :
    ∃ passed, iter = passed ++ entry :: rest ∧
      (∀ e ∈ passed, e.account.toNat < account.toNat) ∧ account.toNat ≤ entry.account.toNat := by
  refine ⟨iter.takeWhile fun entry => entry.account < account, ?_, fun e he => ?_, ?_⟩
  · rw [← hdrop, List.takeWhile_append_dropWhile]
  · exact BitVec.lt_def.mp (of_decide_eq_true (List.mem_takeWhile_imp
      (p := fun e : SignerEntry => decide (e.account < account)) he))
  · have hhead : ∀ l, iter.dropWhile (fun e : SignerEntry => decide (e.account < account)) = l →
        (hne : l ≠ []) → decide ((l.head hne).account < account) = false := by
      rintro l rfl hne
      exact List.head_dropWhile_not _ hne
    have hnot := hhead _ hdrop (List.cons_ne_nil entry rest)
    rw [List.head_cons, decide_eq_false_iff_not, BitVec.lt_def, not_lt] at hnot
    exact hnot

private theorem signed_cons {passed : List SignerEntry}
    (hiter : (passed ++ entry :: rest).Pairwise fun a b => a.account.toNat < b.account.toNat)
    (hsigners : (txSigner :: txSigners).Pairwise fun a b => a.account.toNat < b.account.toNat)
    (hsame : entry.account = txSigner.account) :
    signed (passed ++ entry :: rest) (txSigner :: txSigners) =
      entry :: signed (entry :: rest) txSigners := by
  obtain ⟨-, htail, hpassed⟩ := List.pairwise_append.mp hiter
  obtain ⟨hrest, -⟩ := List.pairwise_cons.mp htail
  obtain ⟨hlater, -⟩ := List.pairwise_cons.mp hsigners
  have hnotLater : ∀ e : SignerEntry, e.account.toNat ≤ txSigner.account.toNat →
      e.account ∉ txSigners.map fun signer => signer.account := by
    intro e hle hmem
    obtain ⟨signer, hsigner, heq⟩ := List.mem_map.mp hmem
    exact absurd (hlater signer hsigner) (not_lt.mpr (by rw [heq]; exact hle))
  have hpassedNil : passed.filter (fun e => e.account ∈
      (txSigner :: txSigners).map fun signer => signer.account) = [] := by
    rw [List.filter_eq_nil_iff]
    intro e he
    have hlt : e.account.toNat < txSigner.account.toNat :=
      hsame ▸ hpassed e he entry List.mem_cons_self
    rw [decide_eq_true_iff, List.map_cons, List.mem_cons, not_or]
    exact ⟨fun heq => hlt.ne (congrArg BitVec.toNat heq), hnotLater e hlt.le⟩
  have hrestEq : rest.filter (fun e => e.account ∈
      (txSigner :: txSigners).map fun signer => signer.account) =
      rest.filter fun e => e.account ∈ txSigners.map fun signer => signer.account := by
    refine List.filter_congr fun e he => ?_
    have hne : e.account ≠ txSigner.account := fun heq =>
      (hrest e he).ne (by rw [hsame, heq])
    simp [hne]
  rw [signed, signed, List.filter_append, hpassedNil, List.nil_append, List.filter_cons_of_pos,
    List.filter_cons_of_neg, hrestEq]
  · simpa using hnotLater entry (hsame ▸ le_refl _)
  · simp [hsame]

theorem walk_eq_ok {weightSum result : UInt32}
    (hiter : iter.Pairwise fun a b => a.account.toNat < b.account.toNat)
    (hsigners : txSigners.Pairwise fun a b => a.account.toNat < b.account.toNat) :
    walk calcAccountID view iter weightSum txSigners = .ok result ↔
      AllListed calcAccountID view iter txSigners ∧
        result = weightSum + UInt32.ofNat (signedWeight iter txSigners) := by
  induction txSigners generalizing iter weightSum with
  | nil => simp [walk, AllListed, signedWeight, signed, eq_comm]
  | cons txSigner txSigners ih =>
    rw [walk]
    cases hdrop : iter.dropWhile fun entry => entry.account < txSigner.account with
    | nil =>
      refine iff_of_false nofun fun h => ?_
      obtain ⟨⟨entry, hentry, heq⟩, -⟩ := h.1 txSigner List.mem_cons_self
      have hlt := List.dropWhile_eq_nil_iff.mp hdrop entry hentry
      rw [decide_eq_true_iff, heq, BitVec.lt_def] at hlt
      exact lt_irrefl _ hlt
    | cons entry rest =>
      obtain ⟨passed, rfl, hpassed, hle⟩ := account_lt_of_dropWhile hdrop
      have htail := (List.pairwise_append.mp hiter).2.1
      obtain ⟨hlater, hsigners'⟩ := List.pairwise_cons.mp hsigners
      simp only [Except.bind_eq_ok, failIf_eq_ok, not_not, checkSigner_eq_ok, ih htail hsigners']
      by_cases hsame : entry.account = txSigner.account
      · -- the others find their entries from here on
        have hlisted : AllListed calcAccountID view (passed ++ entry :: rest)
            (txSigner :: txSigners) ↔ (UsableKey txSigner ∧ MaySign calcAccountID view txSigner) ∧
              AllListed calcAccountID view (entry :: rest) txSigners := by
          rw [AllListed, List.forall_mem_cons]
          refine and_congr ⟨And.right, fun h => ⟨⟨entry, by simp, hsame⟩, h⟩⟩
            (forall₂_congr fun signer hsigner => and_congr ⟨?_, ?_⟩ Iff.rfl)
          · rintro ⟨e, he, heq⟩
            refine ⟨e, ?_, heq⟩
            refine (List.mem_append.mp he).resolve_left fun hmem => ?_
            exact absurd ((hpassed e hmem).trans (hlater signer hsigner)) (heq ▸ lt_irrefl _)
          · rintro ⟨e, he, heq⟩
            exact ⟨e, List.mem_append_right passed he, heq⟩
        have hweight : weightSum + UInt32.ofNat (signedWeight (passed ++ entry :: rest)
            (txSigner :: txSigners)) = weightSum + entry.weight.toUInt32 +
              UInt32.ofNat (signedWeight (entry :: rest) txSigners) := by
          rw [signedWeight, signed_cons hiter hsigners hsame, List.map_cons, List.sum_cons,
            UInt32.ofNat_add, ← UInt32.add_assoc, UInt32.ofNat_uInt16ToNat]
          rfl
        rw [hlisted, hweight]
        constructor
        · rintro ⟨-, -, -, hsigner, hothers, hresult⟩
          exact ⟨⟨hsigner, hothers⟩, hresult⟩
        · rintro ⟨⟨hsigner, hothers⟩, hresult⟩
          exact ⟨(), hsame, (), hsigner, hothers, hresult⟩
      · refine iff_of_false (fun h => hsame h.choose_spec.1) fun h => ?_
        obtain ⟨⟨e, he, heq⟩, -⟩ := h.1 txSigner List.mem_cons_self
        rcases List.mem_append.mp he with hmem | hmem
        · exact absurd (hpassed e hmem) (heq ▸ lt_irrefl _)
        rcases List.mem_cons.mp hmem with rfl | hmem
        · exact hsame heq
        · have hlt := (List.pairwise_cons.mp htail).1 e hmem
          exact absurd (heq ▸ hlt) (not_lt.mpr hle)

end Walk

/-- The weights of a stored list do not overflow their sum. -/
theorem AsStored.signedWeight_lt {entries : List SignerEntry} (h : AsStored entries)
    (txSigners : List Signer) : signedWeight entries txSigners < 4294967296 := by
  have hlength : (signed entries txSigners).length ≤ 32 :=
    (List.length_filter_le _ _).trans h.length_le
  have hsum : signedWeight entries txSigners ≤
      ((signed entries txSigners).map fun entry => entry.weight.toNat).length * 65535 := by
    refine List.sum_le_card_nsmul _ _ fun w hw => ?_
    obtain ⟨entry, -, rfl⟩ := List.mem_map.mp hw
    exact Nat.lt_succ_iff.mp entry.weight.toNat_lt
  rw [List.length_map] at hsum
  omega

/-- **A multi-signature needs the quorum of listed signers.** It is accepted exactly if the account
has a signer list, every signer is in it, signs with a Falcon key, or with none in a simulation, and
may sign for its account, and the weights of the entries that have a signer reach the quorum. -/
theorem checkMultiSign_accepts_iff (calcAccountID : Blob → AccountID) (view : SigningView)
    (id : AccountID) (txSigners : List Signer)
    (hstored : ∀ list entries, view.signers id = some list → deserialize list = .ok entries →
      AsStored entries)
    (hsigners : txSigners.Pairwise fun a b => a.account.toNat < b.account.toNat) :
    checkMultiSign calcAccountID view id txSigners = .ok () ↔
      ∃ list entries, view.signers id = some list ∧ deserialize list = .ok entries ∧
        AllListed calcAccountID view entries txSigners ∧
        list.signerQuorum.toNat ≤ signedWeight entries txSigners := by
  simp only [checkMultiSign, Except.bind_eq_ok, orFail_eq_ok, failIf_eq_ok]
  refine exists_congr fun list => ?_
  constructor
  · rintro ⟨hlist, entries, hentries, weightSum, hwalk, hquorum⟩
    have hstored' := hstored list entries hlist hentries
    obtain ⟨hlisted, rfl⟩ := (walk_eq_ok hstored'.ascending hsigners).mp hwalk
    refine ⟨entries, hlist, hentries, hlisted, ?_⟩
    rw [UInt32.zero_add, UInt32.ofNat_lt_iff (hstored'.signedWeight_lt txSigners), not_lt] at hquorum
    exact hquorum
  · rintro ⟨entries, hlist, hentries, hlisted, hquorum⟩
    have hstored' := hstored list entries hlist hentries
    refine ⟨hlist, entries, hentries, _,
      (walk_eq_ok hstored'.ascending hsigners).mpr ⟨hlisted, rfl⟩, ?_⟩
    rw [UInt32.zero_add, UInt32.ofNat_lt_iff (hstored'.signedWeight_lt txSigners), not_lt]
    exact hquorum

/-- An account with two signers, who sign with their master keys. -/
def twoSigners : SigningView where
  signers _ := some ⟨some [.signerEntry ⟨7, 1⟩, .signerEntry ⟨8, 2⟩], 3⟩
  account _ := some ⟨false, none⟩

/-- Keys belong to the account that their second byte names. -/
def accountOfKey (key : Blob) : AccountID := BitVec.ofNat 160 ((key.getD 1 0).toNat)

/-- A Falcon key, and a classical key. -/
def falconSigner (n : UInt8) : Signer :=
  ⟨BitVec.ofNat 160 n.toNat, 0xFB :: n :: List.replicate 896 0⟩

def classicalSigner : Signer := ⟨8, 0x02 :: 8 :: List.replicate 31 0⟩

theorem asStored_twoSigners {list : SignerList} {entries : List SignerEntry}
    (hlist : twoSigners.signers 1 = some list) (hentries : deserialize list = .ok entries) :
    AsStored entries := by
  obtain rfl := Option.some.inj hlist
  obtain rfl := Except.ok.inj hentries
  exact ⟨by decide, by decide⟩

set_option maxRecDepth 8000 in
theorem checkMultiSign_accepts_falcon :
    ∃ list entries, twoSigners.signers 1 = some list ∧ deserialize list = .ok entries ∧
      AllListed accountOfKey twoSigners entries [falconSigner 7, falconSigner 8] ∧
      list.signerQuorum.toNat ≤ signedWeight entries [falconSigner 7, falconSigner 8] :=
  (checkMultiSign_accepts_iff accountOfKey twoSigners 1 [falconSigner 7, falconSigner 8]
    (fun _ _ => asStored_twoSigners) (by decide)).mp rfl

theorem maySign_of_master {signer : Signer}
    (h : signingAccount accountOfKey signer = signer.account) : MaySign accountOfKey twoSigners signer := by
  rw [MaySign, if_pos h]
  rintro root hroot
  obtain rfl := Option.some.inj hroot
  rfl

set_option maxRecDepth 8000 in
/-- The master key of a listed signer does not count if it is a classical one. -/
theorem checkMultiSign_refuses_classical :
    AsStored [⟨7, 1⟩, ⟨8, 2⟩] ∧
      deserialize ⟨some [.signerEntry ⟨7, 1⟩, .signerEntry ⟨8, 2⟩], 3⟩ = .ok [⟨7, 1⟩, ⟨8, 2⟩] ∧
      MaySign accountOfKey twoSigners (falconSigner 7) ∧
      MaySign accountOfKey twoSigners classicalSigner ∧
      signedWeight [⟨7, 1⟩, ⟨8, 2⟩] [falconSigner 7, classicalSigner] = 3 ∧
      checkMultiSign accountOfKey twoSigners 1 [falconSigner 7, classicalSigner] =
        .error .tefBadSignature :=
  ⟨⟨by decide, by decide⟩, rfl, maySign_of_master rfl, maySign_of_master rfl, rfl, rfl⟩

/-! ### A list that has been accepted -/

section Accepted

variable {id : AccountID} {quorum : UInt32} {entries : List SignerEntry}
  {txSigners txSigners' : List Signer}

theorem deserialize_stored (entries : List SignerEntry) (quorum : UInt32) :
    deserialize ⟨some (entries.map .signerEntry), quorum⟩ = .ok entries := by
  simp only [deserialize, Except.bind_eq_ok, orFail_eq_ok, Option.some.injEq, exists_eq_left']
  induction entries with
  | nil => rfl
  | cons entry entries ih =>
    rw [List.map_cons, List.mapM_cons]
    exact Except.bind_eq_ok.mpr ⟨entry, rfl, Except.bind_eq_ok.mpr ⟨entries, ih, rfl⟩⟩

theorem checkMultiSign_stored (hview : view.signers id =
      some ⟨some (entries.map .signerEntry), quorum⟩) (hstored : AsStored entries)
    (hsigners : txSigners.Pairwise fun a b => a.account.toNat < b.account.toNat) :
    checkMultiSign calcAccountID view id txSigners = .ok () ↔
      AllListed calcAccountID view entries txSigners ∧
        quorum.toNat ≤ signedWeight entries txSigners := by
  simp only [checkMultiSign, Except.bind_eq_ok, orFail_eq_ok, failIf_eq_ok, hview,
    Option.some.injEq, exists_eq_left', deserialize_stored, Except.ok.injEq,
    walk_eq_ok hstored.ascending hsigners]
  constructor
  · rintro ⟨_, ⟨hlisted, rfl⟩, hquorum⟩
    rw [UInt32.zero_add, UInt32.ofNat_lt_iff (hstored.signedWeight_lt txSigners), not_lt] at hquorum
    exact ⟨hlisted, hquorum⟩
  · rintro ⟨hlisted, hquorum⟩
    refine ⟨_, ⟨hlisted, rfl⟩, ?_⟩
    rw [UInt32.zero_add, UInt32.ofNat_lt_iff (hstored.signedWeight_lt txSigners), not_lt]
    exact hquorum

theorem signedWeight_mono (hsub : ∀ signer ∈ txSigners, ∃ signer' ∈ txSigners',
    signer'.account = signer.account) :
    signedWeight entries txSigners ≤ signedWeight entries txSigners' := by
  have hfilter : (signed entries txSigners).Sublist (signed entries txSigners') := by
    refine List.monotone_filter_right entries fun entry h => ?_
    obtain ⟨signer, hsigner, heq⟩ := List.mem_map.mp (of_decide_eq_true h)
    obtain ⟨signer', hsigner', heq'⟩ := hsub signer hsigner
    exact decide_eq_true (List.mem_map.mpr ⟨signer', hsigner', heq'.trans heq⟩)
  exact (hfilter.map _).sum_le_sum fun _ _ => Nat.zero_le _

/-- The accounts of all entries, each with its key. -/
def allSigners (key : AccountID → Blob) (entries : List SignerEntry) : List Signer :=
  entries.map fun entry => ⟨entry.account, key entry.account⟩

/-- **A signer list that has been accepted can be used.** Once a list has passed the checks of the
transaction that sets it, all its signers together reach the quorum, if they may sign; and a
multi-signature that is accepted stays so when more signers of the list join in, whichever of their
keys the others have used. -/
theorem accepted_list_usable (calcAccountID : Blob → AccountID) (view : SigningView)
    (id : AccountID) (quorum : UInt32) (entries : List SignerEntry)
    (hsorted : entries.Pairwise fun a b => a.account.toNat ≤ b.account.toNat)
    (hvalid : validateQuorumAndSignerEntries quorum entries id = .ok ())
    (hview : view.signers id = some ⟨some (entries.map .signerEntry), quorum⟩) :
    (∀ key, AllListed calcAccountID view entries (allSigners key entries) →
      checkMultiSign calcAccountID view id (allSigners key entries) = .ok ()) ∧
    ∀ txSigners txSigners' : List Signer,
      (txSigners.Pairwise fun a b => a.account.toNat < b.account.toNat) →
      (txSigners'.Pairwise fun a b => a.account.toNat < b.account.toNat) →
      (∀ signer ∈ txSigners, ∃ signer' ∈ txSigners', signer'.account = signer.account) →
      checkMultiSign calcAccountID view id txSigners = .ok () →
      (checkMultiSign calcAccountID view id txSigners' = .ok () ↔
        AllListed calcAccountID view entries txSigners') := by
  have hstored := asStored_of_validate hsorted hvalid
  refine ⟨fun key hlisted => ?_, fun txSigners txSigners' hasc hasc' hsub hok => ?_⟩
  · have hasc : (allSigners key entries).Pairwise fun a b => a.account.toNat < b.account.toNat :=
      hstored.ascending.map _ fun _ _ hlt => hlt
    refine (checkMultiSign_stored hview hstored hasc).mpr ⟨hlisted, ?_⟩
    -- the quorum has been checked against the sum of all weights
    have hall : signed entries (allSigners key entries) = entries := by
      refine List.filter_eq_self.mpr fun entry hentry => decide_eq_true ?_
      rw [allSigners, List.map_map]
      exact List.mem_map.mpr ⟨entry, hentry, rfl⟩
    rw [validateQuorumAndSignerEntries] at hvalid
    simp only [Except.bind_eq_ok, failIf_eq_ok, not_or, not_lt] at hvalid
    rw [signedWeight, hall]
    exact hvalid.choose_spec.2.choose_spec.2.choose_spec.2.2
  · rw [checkMultiSign_stored hview hstored hasc']
    have hquorum := ((checkMultiSign_stored hview hstored hasc).mp hok).2
    exact and_iff_left (hquorum.trans (signedWeight_mono hsub))

set_option maxRecDepth 8000 in
theorem accepted_list_usable_twoSigners :
    checkMultiSign accountOfKey twoSigners 1 (allSigners (fun id =>
      (falconSigner (UInt8.ofNat id.toNat)).signingPubKey) [⟨7, 1⟩, ⟨8, 2⟩]) = .ok () :=
  (accepted_list_usable accountOfKey twoSigners 1 3 [⟨7, 1⟩, ⟨8, 2⟩] (by decide) rfl rfl).1 _
    (List.forall_mem_cons.mpr ⟨⟨⟨⟨7, 1⟩, by decide, rfl⟩, .inr rfl, maySign_of_master rfl⟩,
      List.forall_mem_singleton.mpr ⟨⟨⟨8, 2⟩, by decide, rfl⟩, .inr rfl, maySign_of_master rfl⟩⟩)

end Accepted

end MultiSign

end FalconLedger
