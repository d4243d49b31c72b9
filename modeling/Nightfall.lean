import Nightfall.Field.Bn254
import Nightfall.Plonk.Circuit
import Nightfall.Plonk.Logic
import Nightfall.Plonk.Gadgets
import Nightfall.Plonk.MembershipProof
import Nightfall.Plonk.Extension
import Nightfall.Merkle.Tree
import Nightfall.Merkle.Fold
import Nightfall.Evm.Word
import Nightfall.Evm.Memory
import Nightfall.Evm.Calldata
import Nightfall.Evm.Total
import Nightfall.Client.Inputs
import Nightfall.Client.VerifyGadgets
import Nightfall.Client.Encryption
import Nightfall.Client.UnifiedCircuit
import Nightfall.Client.Assignment
import Nightfall.Client.Spending
import Nightfall.Client.Conservation
import Nightfall.Client.Completed
import Nightfall.Semantics.Run
import Nightfall.Contract.State
import Nightfall.Contract.BlockHash
import Nightfall.Contract.ProposeBlock
import Nightfall.Contract.EscrowFunds
import Nightfall.Contract.DescrowFunds
import Nightfall.Contract.Calls
import Nightfall.Contract.Deposits
import Nightfall.Contract.Solvency
import Nightfall.Contract.Withdrawals
import Nightfall.Contract.Custody
import Nightfall.Contract.Escrowed
import Nightfall.Contract.Fees
import Nightfall.Data.Correspondence
import Nightfall.Data.LinkedCycle
import Nightfall.Evm.Revert
import Nightfall.RoundRobin.Contract
import Nightfall.RoundRobin.Calls
import Nightfall.RoundRobin.Leaving
import Nightfall.RoundRobin.Stakes
import Nightfall.RoundRobin.Ring
import Nightfall.RoundRobin.Rotation
import Nightfall.RoundRobin.Cooldown
import Nightfall.Rollup.VkCheck
import Nightfall.X509.Contract
import Nightfall.X509.Calls
import Nightfall.X509.Revocation
import Nightfall.X509.Binding
import Nightfall.X509.Chain
import Nightfall.Data.Collection
import Nightfall.Data.Chunks
import Nightfall.Data.ListCodec
import Nightfall.Data.Ranking
import Nightfall.Merkle.NodeIndex
import Nightfall.Merkle.Frontier
import Nightfall.Trees.CompleteTree
import Nightfall.Trees.Mutable
import Nightfall.Trees.Hook
import Nightfall.Trees.Naive
import Nightfall.Trees.Refinement
import Nightfall.Trees.MutableRuns
import Nightfall.Trees.DryRun
import Nightfall.Semantics.Stateful
import Nightfall.Data.Links
import Nightfall.Trees.Shape
import Nightfall.Trees.PaddedHex
import Nightfall.Trees.Indexed
import Nightfall.Trees.LinkedLeaves
import Nightfall.Trees.IndexedRuns
import Nightfall.Trees.IndexedTree
import Nightfall.Trees.Batches
import Nightfall.Trees.Replay
import Nightfall.Trees.FailingWrites
import Nightfall.Trees.AlignedUpdates
import Nightfall.Trees.InsertionPaths
import Nightfall.Trees.NewRoot
import Nightfall.Trees.AppendOnly
import Nightfall.Trees.Capacity
import Nightfall.Trees.NewLeaves
import Nightfall.Trees.Rejections
import Nightfall.Trees.ExactProofs
import Nightfall.Trees.Witnesses
import Nightfall.Trees.InsertionShapes
import Nightfall.Node.Words
import Nightfall.Client.KemDem
import Nightfall.Node.Events
import Nightfall.Node.Mempool
import Nightfall.Node.Proposer
import Nightfall.Node.Admission
import Nightfall.Node.Selection
import Nightfall.Node.Assembly
import Nightfall.Node.ExtraInfo
import Nightfall.Node.Finality
import Nightfall.Node.StoredBlocks
import Nightfall.Node.Resync
import Nightfall.Hash.Sha512
import Nightfall.X509.Sha
import Nightfall.Data.Tlv
import Nightfall.Data.Hex
import Nightfall.X509.DerParser
import Nightfall.X509.DerElements
import Nightfall.X509.DerWalk
import Nightfall.X509.DerForest
import Nightfall.X509.DerNesting
import Nightfall.X509.SignatureBlock
import Nightfall.X509.Extensions
import Nightfall.X509.CertificateTree
import Nightfall.Data.Calendar
import Nightfall.X509.Validity
import Nightfall.Node.Conflicts
import Nightfall.Node.DepositEvents
import Nightfall.Wallet.CommitmentDb
import Nightfall.Wallet.CommitmentSelection
import Nightfall.Wallet.ClientOperation
import Nightfall.Wallet.Requests
import Nightfall.Wallet.Reservations
import Nightfall.Wallet.Synchronisation
import Nightfall.Wallet.DepositOperation
import Nightfall.Wallet.Selected
import Nightfall.Wallet.Optimal
import Nightfall.Wallet.Holdings
import Nightfall.Wallet.Provable
import Nightfall.Wallet.Classified
import Nightfall.Node.DepositCircuit
import Nightfall.Node.DepositAgreement
import Nightfall.Codec.HexConversion
import Nightfall.Codec.Serialization
import Nightfall.Codec.TypeConversions
import Nightfall.Codec.TokenId
import Nightfall.Data.EvaluationDomain
import Nightfall.Verifier.Arithmetic
import Nightfall.Verifier.PolynomialEval
import Nightfall.Data.HashChain
import Nightfall.Verifier.Types
import Nightfall.Verifier.Bn254Crypto
import Nightfall.Data.Merging
import Nightfall.Data.Lines
import Nightfall.Data.Regex
import Nightfall.Data.Scan
import Nightfall.Verifier.EqualBases
import Nightfall.Verifier.Transcript
import Nightfall.Verifier.Linearization
import Nightfall.Verifier.RollupProofVerifier
import Nightfall.Verifier.UltraPlonk
import Nightfall.Verifier.Identity
import Nightfall.Data.BatchOpening
import Nightfall.Verifier.Opening
import Nightfall.Verifier.Wire
import Nightfall.Deployer.VkBlock
import Nightfall.Deployer.VkContract
import Nightfall.Deployer.OwnSection
import Nightfall.Contract.Calldata
import Nightfall.Merkle.Replacements
import Nightfall.Rollup.CircuitSpecs
import Nightfall.Rollup.Recursion
import Nightfall.Plonk.Runs
import Nightfall.Rollup.Honest
import Nightfall.Rollup.ExtraInfo
import Nightfall.Contract.Roots
import Nightfall.Rollup.Ledger
