import Terpz.Lib.BigEndian
import Terpz.Lib.Checks
import Terpz.Lib.DoublingTree
import Terpz.Lib.Folding
import Terpz.Lib.Overwrite
import Terpz.Lib.PerfectTree
import Terpz.Lib.PrefixStore
import Terpz.Lib.Run
import Terpz.Lib.Sha256
import Terpz.Lib.SquareMultiply
import Terpz.Lib.Text
import Terpz.Lib.Table
import Terpz.Lib.OnePerKey
import Terpz.Lib.CacheStore
import Terpz.Lib.Checked
import Terpz.Lib.Formula
import Terpz.Lib.Attempt
import Terpz.Lib.ContentStore
import Terpz.Lib.Base64
import Terpz.Lib.Ledger
import Terpz.Lib.Pool
import Terpz.Lib.Trace
import Terpz.Lib.Reads
import Terpz.Lib.LaneMix
import Terpz.Lib.Separated
import Terpz.Lib.Json
import Terpz.Lib.OwnerIndex
import Terpz.Lib.Ascending
import Terpz.Lib.Decimal
import Terpz.Lib.Protobuf
import Terpz.Lib.Bech32
import Terpz.Leanval.Types.Keys
import Terpz.Leanval.Types.Inject
import Terpz.Leanval.Types.Pairs
import Terpz.Leanval.Types.Ssle
import Terpz.Leanval.Types.WireFormats
import Terpz.Leanval.Types.SubspaceSafety
import Terpz.Leanval.Keeper.Merkle
import Terpz.Leanval.Keeper.Bitfield
import Terpz.Leanval.Roster
import Terpz.Leanval.Keeper.RosterView
import Terpz.Leanval.Keeper.Bonded
import Terpz.Leanval.Keeper.Proofs
import Terpz.Leanval.Keeper.StwoVerifiers
import Terpz.Leanval.Keeper.Lnpr
import Terpz.Leanval.Keeper.Updates
import Terpz.Leanval.Keeper.Queue
import Terpz.Leanval.Keeper.Acts
import Terpz.Leanval.Keeper.Reach
import Terpz.Leanval.Keeper.Members
import Terpz.Leanval.Keeper.Block
import Terpz.Leanval.Keeper.Powers
import Terpz.Leanval.Keeper.Ssle
import Terpz.Leanval.Keeper.Proposal
import Terpz.Leanval.DepositIndex
import Terpz.Leanval.ObjectRoots
import Terpz.Leanval.Keeper.Provers
import Terpz.Leanval.MemberWeight
import Terpz.Leanval.LiveSet
import Terpz.Leanval.JoinQuorum
import Terpz.Leanval.CometView
import Terpz.Leanval.JoinStatement
import Terpz.Leanval.LeaveFinality
import Terpz.Leanval.RootBinding
import Terpz.Leanval.PrepareProcess
import Terpz.Leanval.Cwffi.Cert
import Terpz.Leanval.Cwffi.Payload
import Terpz.Leanval.Cwffi.Participants
import Terpz.Leanval.Cwffi.Driver
import Terpz.Leanval.Cwffi.Replica
import Terpz.Leanval.Cwffi.CatchUp
import Terpz.Leanval.Cwffi.Heights
import Terpz.Leanval.Cwffi.Rpc
import Terpz.Leanval.Cwffi.Committee
import Terpz.Leanval.Cwffi.Membership
import Terpz.Leanval.Keeper.Export
import Terpz.Leanval.ExportImport
import Terpz.Leanval.Cwffi.CertWire
import Terpz.Leanval.Ffi.Scheme
import Terpz.Leanval.Cwffi.WeightedQuorum
import Terpz.Leanval.Cwffi.CreditedVotes
import Terpz.Leanval.Cwffi.Certify
import Terpz.Leanval.Cwffi.Mempool
import Terpz.Leanval.ProposalCheck
import Terpz.Leanval.Ffi.Payload
import Terpz.Leanval.PayloadCodecs
import Terpz.Leanval.Cwffi.CatchUpLoop
import Terpz.Leanval.Cwffi.Replay
import Terpz.Leanval.StwoDummy.Dummy
import Terpz.Leanval.StwoDummy.Valset
import Terpz.Leanval.DummyBinding
import Terpz.Leanval.Cwffi.EngineNamespace
import Terpz.Leanval.Ffi.Automaton
import Terpz.Leanval.Ffi.Dissemination
import Terpz.Leanval.Ffi.Floor
import Terpz.Aggregate.M31
import Terpz.Aggregate.FieldExact
import Terpz.Aggregate.Fri
import Terpz.Aggregate.Codeword
import Terpz.Aggregate.Completeness
import Terpz.Aggregate.Blob
import Terpz.Aggregate.BlobWire
import Terpz.Aggregate.Binding
import Terpz.Aggregate.FoldChain
import Terpz.Aggregate.SumPolynomial
import Terpz.Hashmerchant.Types
import Terpz.Hashmerchant.Keeper.Store
import Terpz.Hashmerchant.Keeper.VoteExt
import Terpz.Hashmerchant.Tally
import Terpz.Hashmerchant.Quorum
import Terpz.Hashmerchant.Keeper.Abci
import Terpz.Hashmerchant.VisitOrder
import Terpz.Hashmerchant.Metadata
import Terpz.Hashmerchant.Keeper.MsgServer
import Terpz.Hashmerchant.Escrow
import Terpz.Hashmerchant.Keeper.Genesis
import Terpz.Hashmerchant.OracleRegistry
import Terpz.Hashmerchant.Service
import Terpz.Hashmerchant.PaidTime
import Terpz.Hashmerchant.RootKeys
import Terpz.Hashmerchant.CustodyDomain
import Terpz.SmartAccount.Types
import Terpz.SmartAccount.Authenticator.Composite
import Terpz.SmartAccount.CompositeFormula
import Terpz.SmartAccount.Context
import Terpz.SmartAccount.Keeper.Keeper
import Terpz.SmartAccount.Keeper.MsgServer
import Terpz.SmartAccount.Authenticator.Request
import Terpz.SmartAccount.Ante.CircuitBreaker
import Terpz.SmartAccount.Post
import Terpz.SmartAccount.Confirmation
import Terpz.SmartAccount.Ante.Authenticate
import Terpz.SmartAccount.AntePersists
import Terpz.SmartAccount.Keeper.Registry
import Terpz.SmartAccount.RegistryExact
import Terpz.SmartAccount.Authenticator.MessageFilter
import Terpz.Tokenfactory.Types
import Terpz.Tokenfactory.Bank
import Terpz.Tokenfactory.Keeper
import Terpz.Tokenfactory.MsgServer
import Terpz.Tokenfactory.Authority
import Terpz.Tokenfactory.ModuleAccounts
import Terpz.Tokenfactory.Genesis
import Terpz.Tokenfactory.GenesisRoundTrip
import Terpz.CwHooks.Types
import Terpz.CwHooks.Keeper
import Terpz.CwHooks.Isolation
import Terpz.Globalfee.Fee
import Terpz.Globalfee.MinimumFee
import Terpz.Feeshare.Types
import Terpz.Feeshare.Keeper
import Terpz.Feeshare.IndexExact
import Terpz.Feeshare.Payout
import Terpz.App.Engine
import Terpz.App.ChainState
import Terpz.App.Injected
import Terpz.App.Prepared
