import Qrtb.Ledger.SpentForever
import Qrtb.Ledger.Slashing
import Qrtb.Ledger.StakeIndex
import Qrtb.Ledger.AddressIndex
import Qrtb.Ledger.EncodedSize
import Qrtb.Blocks.Atomicity
import Qrtb.Blocks.TransactionLayer
import Qrtb.Blocks.ParallelBuilder
import Qrtb.Blocks.Sequential
import Qrtb.Blocks.Limits
import Qrtb.Consensus.Binding
import Qrtb.Consensus.Agreement
import Qrtb.Consensus.Equivocation
import Qrtb.Consensus.RunningRound
import Qrtb.Consensus.DetectionView
import Qrtb.Consensus.EpochRecords
import Qrtb.Consensus.Slashing
import Qrtb.Consensus.Stats
import Qrtb.Consensus.RevealWire
import Qrtb.Consensus.Digests
import Qrtb.Consensus.TriangleOrder
import Qrtb.Wallet.OneTime
import Qrtb.Wallet.InStep
import Qrtb.Wallet.Balance
import Qrtb.Wallet.FailedBuilders
import Qrtb.Storage.Immutability
import Qrtb.Storage.Spends
import Qrtb.Storage.Finalizer
import Qrtb.Storage.RecoveredState
import Qrtb.Storage.Validators
import Qrtb.Performance.AtRest
import Qrtb.Performance.BatchSignatures
import Qrtb.Performance.ParallelMerkleBinding
import Qrtb.Native.TemporalAuth
import Qrtb.Native.ProofBuffers
import Qrtb.Native.CudaVerify
import Qrtb.Native.AuthAgreement
import Qrtb.Network.Framing
import Qrtb.Network.Containment
import Qrtb.Simulation.Finalization
import Qrtb.Crypto.SignatureLength
import Qrtb.Crypto.MerkleBinding
import Qrtb.Lib.AsyncNetwork
import Qrtb.Lib.Mailbox
import Qrtb.Lib.TwoPhase
import Qrtb.Simulation.Delivery
import Qrtb.Simulation.RoutedAgreement
import Qrtb.Simulation.RoutedFinalization
import Qrtb.Simulation.RoutedQuiescence
import Qrtb.Consensus.EntropyChain
import Qrtb.Consensus.Verdicts
import Qrtb.Lib.SortedTable
import Qrtb.Storage.BlockArchive
import Qrtb.Wallet.Bookkeeping
import Qrtb.Consensus.NodeCalls
import Qrtb.Consensus.NodeNetwork
import Qrtb.Blocks.ParallelProduction
import Qrtb.Native.AuthVerification
