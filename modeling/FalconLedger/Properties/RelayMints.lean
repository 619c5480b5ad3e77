import FalconLedger.Data.Sums
import FalconLedger.Properties.ClaimMints
import FalconLedger.Properties.DepositMints

/-!
# Each deposit is minted once

In both relays, as long as no mint begins while the relay has missed that an earlier one for the
same deposit has been validated. What has been issued is then covered by what is locked, where no
amount is rounded up when it is printed.
-/

namespace FalconLedger

open Program Minting

namespace DepositRelay

/-- The deposits that can be decoded. -/
def deposits (logs : List Log) : List Deposit := logs.filterMap decodeDepositLog

instance (w : Around) (p : Payment String) : Decidable (OnRecord w p) :=
  inferInstanceAs (Decidable ((p.key, some p) ∈ w.memory.mints))

end DepositRelay

instance (w : BtcRelay.Around) (p : Payment BtcRelay.Txid) : Decidable (BtcRelay.OnRecord w p) :=
  inferInstanceAs (Decidable ((p.key, some p) ∈ w.state.mints))

namespace DepositRelay.Sample

def word (n : ℕ) : List Char :=
  (List.range 64).map fun i => Nat.digitChar (n / 16 ^ (63 - i) % 16)

/-- A deposit of five units of a token with six decimals. -/
def log : Log where
  topics := ["DepositCreated", "0xA1", "0x02"]
  data := '0' :: 'x' :: (word 5000000 ++ word 64 ++ word 1 ++ ['7', '2'])
  blockNumber := 1

def node : Node String := ⟨100, 7, [], [], []⟩

def payment (seq : ℕ) : Payment String := ⟨"0xa1", "r", 5, seq, 130⟩

def answered (n : ℕ) : List (Act Fate Event Args) := List.replicate n (.resume .answered)

/-- A poll up to the submission of a Payment. -/
def upToSubmit : List (Act Fate Event Args) := .start ⟨1, false⟩ :: answered 12

/-- The answer to the submission is lost, the Payment is validated, and the next poll mints again. -/
def twice : List (Act Fate Event Args) :=
  .env (.block [log]) :: upToSubmit ++
    .resume .lost :: .env (.node (.validates (payment 7) true)) :: upToSubmit ++
    [.resume .answered, .env (.node (.validates (payment 8) true))]

/-- The answer to the submission is lost, and a ledger later the next poll submits another Payment of the
same sequence. That one is validated while the relay waits for it, and the first one no more. -/
def retried : List (Act Fate Event Args) :=
  .env (.block [log]) :: upToSubmit ++ .resume .lost :: .env (.node .ledger) :: upToSubmit ++
    .resume .answered ::
      .env (.node (.validates { payment 7 with lastLedgerSequence := 131 } true)) ::
      .env (.node (.validates (payment 7) true)) :: answered 7

end DepositRelay.Sample

namespace BtcRelay.Sample

def txid : Txid := List.replicate 64 '0'

def account : List Char := 'r' :: List.replicate 24 '1'

/-- Every transaction pays 1000 satoshi into custody. -/
def chain : Chain := ⟨fun _ => [⟨"custody", 1000⟩], "custody"⟩

def node : Node Txid := ⟨100, 7, [], [], []⟩

def answered (n : ℕ) : List (Act Fate Event Args) := List.replicate n (.resume .answered)

/-- A claim that is minted. -/
def claimed : List (Act Fate Event Args) :=
  .env (.postLoad ⟨account, txid, 1000⟩) :: .env .postSave :: .start ⟨false, true⟩ :: answered 9 ++
    .env (.node (.validates ⟨txid, String.ofList account, 1 / 10 ^ 5, 7, 130⟩ true)) :: answered 3

end BtcRelay.Sample

end FalconLedger
