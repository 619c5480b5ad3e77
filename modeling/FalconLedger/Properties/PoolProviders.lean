import FalconLedger.Close.BuildLedger
import Mathlib.Data.BitVec
import Mathlib.Data.Set.Card

/-!
# Counting the providers of pools

A trust line keeps its balance under the neutral issuer `noAccount`, and its two sides are told by
the limits. `countAmmLpProvidersAndTvl` looks for balances issued by the account of a pool, which no
line has: it counts nobody, whatever is held.
-/

namespace FalconLedger

/-- `noAccount()`: the issuer of the balance of every trust line. -/
def noAccount : AccountID := 1

/-- The lines are as the ledger code writes them, and no pool has the account that does not exist. -/
structure Ledger.LinesNeutral (s : Ledger) : Prop where
  balance : ∀ line ∈ Table.values s.holdings.lines, line.balance.account = noAccount
  pool : ∀ amm ∈ Table.values s.holdings.amms, amm.account ≠ noAccount

namespace RewardEpoch

open ClaimAmmLpReward

variable {H : Services} {s : Ledger} {amms : List NativeAmmInfo} {line : RippleState}

/-! ### Providers -/

/-- The account, no pool's own, holds tokens of a pool with a native side. -/
def IsAmmProvider (H : Services) (s : Ledger) (a : AccountID) : Prop :=
  (∀ amm ∈ Table.values s.holdings.amms, a ≠ amm.account) ∧
    ∃ amm ∈ Table.values s.holdings.amms, (amm.asset.native || amm.asset2.native) = true ∧
      (ammLPHolds H s amm a).isNonPositive = false

/-- The providers are counted, and an epoch that starts while there are any sets something aside for
them. -/
structure CountsProviders (H : Services) (s : Ledger) (seq : UInt32) : Prop where
  count : (countAmmLpProvidersAndTvl H.toHashes s).1.toNat = {a | IsAmmProvider H s a}.ncard
  allocation : (∃ a, IsAmmProvider H s a) →
    (newEpoch H.toHashes s seq).ammLPAllocationBps.getD 0 ≠ 0

/-! ### What is counted -/

theorem lpHolder_eq_none (hbalance : line.balance.account = noAccount)
    (hpool : ∀ a ∈ amms, a.ammAccount ≠ noAccount) : lpHolder amms line = none := by
  unfold lpHolder
  split_ifs
  · rfl
  · refine List.findSome?_eq_none_iff.mpr fun a ha => if_pos (.inr ?_)
    rw [hbalance]
    exact (hpool a ha).symm

theorem ammAccount_of_mem {a : NativeAmmInfo} (h : a ∈ listNativeAmms H.toHashes s) :
    ∃ amm ∈ Table.values s.holdings.amms, a.ammAccount = amm.account := by
  obtain ⟨amm, hamm, hinfo⟩ := List.mem_filterMap.mp h
  refine ⟨amm, hamm, ?_⟩
  split_ifs at hinfo
  cases hinfo
  rfl

theorem count_eq_zero (h : s.LinesNeutral) : (countAmmLpProvidersAndTvl H.toHashes s).1 = 0 := by
  have hpool : ∀ a ∈ listNativeAmms H.toHashes s, a.ammAccount ≠ noAccount := fun a ha => by
    obtain ⟨amm, hamm, heq⟩ := ammAccount_of_mem ha
    rw [heq]
    exact h.pool amm hamm
  have hnone : (Table.values s.holdings.lines).filterMap
      (lpHolder (listNativeAmms H.toHashes s)) = [] :=
    List.filterMap_eq_nil_iff.mpr fun line hline => lpHolder_eq_none (h.balance line hline) hpool
  unfold countAmmLpProvidersAndTvl
  dsimp only
  split_ifs
  · rfl
  · rw [hnone]
    rfl

theorem allocation_eq_zero (h : s.LinesNeutral) (seq : UInt32) :
    (newEpoch H.toHashes s seq).ammLPAllocationBps.getD 0 = 0 := by
  have hfield : (newEpoch H.toHashes s seq).ammLPAllocationBps =
      unlessZero (poplAmmLpParticipationBps (countAmmLpProvidersAndTvl H.toHashes s).1) := rfl
  rw [hfield, getD_unlessZero, count_eq_zero h]
  decide

/-- **When the providers of pools are counted.** In a ledger whose trust lines are as the code writes
them, the count is right if and only if there is nobody to count. -/
theorem amm_providers_counted_iff (h : s.LinesNeutral) (seq : UInt32) :
    CountsProviders H s seq ↔ ∀ a, ¬IsAmmProvider H s a := by
  constructor
  · -- an allocation of zero is what a claim is refused for
    intro hcount a ha
    exact hcount.allocation ⟨a, ha⟩ (allocation_eq_zero h seq)
  · intro hnone
    refine ⟨?_, fun ⟨a, ha⟩ => absurd ha (hnone a)⟩
    have hempty : {a | IsAmmProvider H s a} = ∅ := Set.eq_empty_of_forall_notMem hnone
    rw [count_eq_zero h, hempty, Set.ncard_empty]
    rfl

/-! ### One provider -/

/-- The services of the network, with a treasury that is none of its accounts. -/
def sampleServices : Services := { Sample.services with getTreasuryAccountID := 100 }

/-- The network with the given lines. -/
def sampleLedger (lines : Table (AccountID × AccountID × Currency) RippleState) : Ledger :=
  { Sample.ledger with
    accounts := Sample.ledger.accounts.insert 100 (Sample.account 4166667)
    holdings := { Sample.holdings Sample.alice with lines } }

/-- The line on which `alice` holds the only token of the pool. -/
def aliceLine : RippleState :=
  ⟨{ Sample.lpTokens 1 with account := noAccount }, Sample.alice, Sample.ammAccount, false, false⟩

def aliceLines : Table (AccountID × AccountID × Currency) RippleState :=
  AList.insert (lineKey Sample.alice Sample.ammAccount 9) aliceLine ∅

theorem amm_providers_counted_none :
    (∀ a, ¬IsAmmProvider sampleServices (sampleLedger ∅) a) ∧
      CountsProviders sampleServices (sampleLedger ∅) (8 * kQxrpLedgersPerEpoch) := by
  have hneutral : (sampleLedger ∅).LinesNeutral := by
    refine ⟨fun line hline => (by cases hline), fun amm hamm => ?_⟩
    obtain rfl := List.mem_singleton.mp hamm
    decide
  have hnone : ∀ a, ¬IsAmmProvider sampleServices (sampleLedger ∅) a := by
    rintro a ⟨-, amm, -, -, hholds⟩
    cases hholds
  exact ⟨hnone, (amm_providers_counted_iff hneutral _).mpr hnone⟩

/-- `alice` holds all tokens of a native pool. She is not counted, the next epoch allocates nothing to
providers, and refuses her claim. -/
theorem amm_provider_refused :
    let s := sampleLedger aliceLines
    let s' := applyRewardEpoch sampleServices.toHashes s (8 * kQxrpLedgersPerEpoch) s.rules
    s.LinesNeutral ∧ IsAmmProvider sampleServices s Sample.alice ∧
      countAmmLpProvidersAndTvl sampleServices.toHashes s = (0, 1000000) ∧
      s'.epoch.map (fun epoch => epoch.ammLPAllocationBps.getD 0) = some 0 ∧
      ClaimAmmLpReward.preclaim sampleServices s'
        ⟨1, Sample.alice, none, 10, .seq 1, .claimAmmLpReward (some .xrp) (some (.issue 10 11))⟩
        (some .xrp) (some (.issue 10 11)) = .error .tecNoPermission := by
  intro s s'
  refine ⟨⟨?_, ?_⟩, ⟨?_, ?_⟩, by decide +kernel, by decide +kernel, by decide +kernel⟩
  · intro line hline
    obtain rfl := List.mem_singleton.mp hline
    rfl
  · intro amm hamm
    obtain rfl := List.mem_singleton.mp hamm
    decide
  · intro amm hamm
    obtain rfl := List.mem_singleton.mp hamm
    decide
  · exact ⟨_, List.mem_singleton_self _, rfl, by decide +kernel⟩

end RewardEpoch

end FalconLedger
