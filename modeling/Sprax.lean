import Sprax.FiniteMap
import Sprax.Runs
import Sprax.Agreement
import Sprax.Effects
import Sprax.Built
import Sprax.Collisions
import Sprax.Edits
import Sprax.Throttle
import Sprax.Decimal
import Sprax.Literals
import Sprax.Regrouping
import Sprax.Paging
import Sprax.Filing
import Sprax.Registry
import Sprax.RoundRobin
import Sprax.Ranking
import Sprax.Framing
import Sprax.Types
import Sprax.Crypto
import Sprax.Text
import Sprax.Serde
import Sprax.Store
import Sprax.Tables
import Sprax.Executor
import Sprax.Ledger
import Sprax.Rpc
import Sprax.Codec
import Sprax.Devnet
import Sprax.Apply
import Sprax.Accounting
import Sprax.Admission
import Sprax.Expiry
import Sprax.Replication
import Sprax.Roots
import Sprax.Backends
import Sprax.Batches
import Sprax.Validators
import Sprax.Staking
import Sprax.Books
import Sprax.Failures
import Sprax.Solvency
import Sprax.Jail
import Sprax.Evidence
import Sprax.Downtime
import Sprax.ActiveSet
import Sprax.Engine
import Sprax.Node
import Sprax.Votes
import Sprax.Slashing
import Sprax.Chain
import Sprax.Moves
import Sprax.Merkle
import Sprax.Linked
import Sprax.Receipts
import Sprax.Proposable
import Sprax.Reopen
import Sprax.Pruning
import Sprax.Writes
import Sprax.Crash
import Sprax.Rounds
import Sprax.Restart
import Sprax.Reload
import Sprax.Proposers
import Sprax.Tally
import Sprax.Quorums
import Sprax.EngineRuns
import Sprax.Certificates
import Sprax.Locks
import Sprax.Fairness
import Sprax.Rotation
import Sprax.Binding
import Sprax.Gossip
import Sprax.Peers
import Sprax.Wire
import Sprax.Precommits
import Sprax.Equivocation
import Sprax.World
import Sprax.Safety
import Sprax.Fork
import Sprax.Assembly
import Sprax.Strides
import Sprax.Progress
import Sprax.Decision
import Sprax.Wasm
import Sprax.Vm
import Sprax.Token
import Sprax.Supply
import Sprax.Spending
import Sprax.Escrow
import Sprax.Governance
import Sprax.Ballots
import Sprax.Polls
import Sprax.Atomic
import Sprax.Isolation
import Sprax.GasLimits
import Sprax.Queries
import Sprax.IndexStore
import Sprax.Timelines
import Sprax.Reindexing
import Sprax.IndexAudit
import Sprax.ValidatorSync
import Sprax.Indexer
import Sprax.Gaps
import Sprax.Auth
import Sprax.LoginRaces
import Sprax.Sockets
import Sprax.Subscriptions
import Sprax.Wallet
import Sprax.AddressWords
import Sprax.Payloads
import Sprax.Amounts
import Sprax.AmountInput
import Sprax.Addresses
import Sprax.Faucet
import Sprax.Balances
import Sprax.Server
import Sprax.Requests
import Sprax.Payouts
import Sprax.Limiter
import Sprax.FailedClaims
import Sprax.FaucetServer
