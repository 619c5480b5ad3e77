import FalconLedger.Close.ApplyTransactions
import FalconLedger.Properties.AmountRatios
import FalconLedger.Properties.AmountTexts
import FalconLedger.Properties.Base58Tokens
import FalconLedger.Properties.BlockersAlone
import FalconLedger.Properties.ChildSlots
import FalconLedger.Properties.ClaimRecords
import FalconLedger.Properties.CustodyGovernance
import FalconLedger.Properties.Determinism
import FalconLedger.Properties.Directories
import FalconLedger.Properties.DirectoryCleanup
import FalconLedger.Properties.Disputes
import FalconLedger.Properties.FeeSplit
import FalconLedger.Properties.FlagLedgers
import FalconLedger.Properties.GoodStanding
import FalconLedger.Properties.MPTSupply
import FalconLedger.Properties.MultiSigning
import FalconLedger.Properties.NameGrammar
import FalconLedger.Properties.NameRegistry
import FalconLedger.Properties.NegativeUNLRuns
import FalconLedger.Properties.OfferRuns
import FalconLedger.Properties.OpenView
import FalconLedger.Properties.PaymentCredits
import FalconLedger.Properties.PaymentParts
import FalconLedger.Properties.PendingRuns
import FalconLedger.Properties.PoolFormulas
import FalconLedger.Properties.PoolProviders
import FalconLedger.Properties.PoolShares
import FalconLedger.Properties.PoolSwaps
import FalconLedger.Properties.ProposalKeys
import FalconLedger.Properties.Proposers
import FalconLedger.Properties.PublisherRevocation
import FalconLedger.Properties.RelayRecords
import FalconLedger.Properties.SHAMapDelta
import FalconLedger.Properties.Schedule
import FalconLedger.Properties.ScoreBounds
import FalconLedger.Properties.Serialization
import FalconLedger.Properties.ShareChanges
import FalconLedger.Properties.SkipLists
import FalconLedger.Properties.SlashEvidence
import FalconLedger.Properties.SyncCompleteness
import FalconLedger.Properties.TokenRuns
import FalconLedger.Properties.TrustLineBooks
import FalconLedger.Properties.TrustedValidators
import FalconLedger.Properties.ValidationCounts
import FalconLedger.Properties.VaultExchange
