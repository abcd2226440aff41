import AgentSync.Machine
import AgentSync.Dag
import AgentSync.Async
import AgentSync.Sync
import AgentSync.Locks
import AgentSync.Inodes
import AgentSync.Index
import AgentSync.Turns
import AgentSync.Tickets
import AgentSync.Debounce
import AgentSync.Pipes
import AgentSync.Program
import AgentSync.Trimming
import AgentSync.Bits
import AgentSync.Usize
import AgentSync.Js
import AgentSync.Utf16
import AgentSync.Text
import AgentSync.Registers
import AgentSync.Wildcards
import AgentSync.Regex
import AgentSync.Basic
import AgentSync.Base64
import AgentSync.Path
import AgentSync.Fs.Disk
import AgentSync.Store.Blobs
import AgentSync.Doc.Store
import AgentSync.Doc.Schema
import AgentSync.Doc.Read
import AgentSync.Doc.Write
import AgentSync.Doc.History
import AgentSync.Doc.Lasting
import AgentSync.Doc.Sound
import AgentSync.Doc.Replica
import AgentSync.Doc.Replay
import AgentSync.Doc.Records
import AgentSync.Doc.Effects
import AgentSync.Doc.Restore
import AgentSync.Doc.Live
import AgentSync.Doc.Genesis
import AgentSync.Doc.Alignment
import AgentSync.Doc.Entries
import AgentSync.Doc.Outcome
import AgentSync.Doc.Timeline
import AgentSync.Doc.Tree
import AgentSync.Doc.Directories
import AgentSync.Doc.Closure
import AgentSync.Doc.Unique
import AgentSync.Doc.Merging
import AgentSync.Doc.Scan
import AgentSync.Doc.Cascade
import AgentSync.Doc.Failure
import AgentSync.Doc.Deleting
import AgentSync.Doc.Moving
import AgentSync.Doc.Staying
import AgentSync.Doc.Ancestry
import AgentSync.Doc.Converging
import AgentSync.Doc.Grounded
import AgentSync.Doc.Committing
import AgentSync.Doc.Meeting
import AgentSync.Doc.Labels
import AgentSync.Doc.Team
import AgentSync.Fs.Selection
import AgentSync.Fs.Binding
import AgentSync.Fs.PathOrder
import AgentSync.Fs.Suppression
import AgentSync.Fs.Ingest
import AgentSync.Fs.Adapter
import AgentSync.Fs.Paths
import AgentSync.Fs.Events
import AgentSync.Fs.Materialize
import AgentSync.Fs.Effects
import AgentSync.Fs.Session
import AgentSync.Fs.Tracking
import AgentSync.Fs.Bodies
import AgentSync.Fs.Retrying
import AgentSync.Fs.Guarding
import AgentSync.Fs.Returning
import AgentSync.Fs.Bringing
import AgentSync.Fs.Rescan
import AgentSync.Fs.Scanning
import AgentSync.Fs.Debouncing
import AgentSync.Fs.Confining
import AgentSync.Fs.LocalFiles
import AgentSync.Fs.Mirroring
import AgentSync.Fs.Globs
import AgentSync.Fs.Extensions
import AgentSync.Fs.Ignoring
import AgentSync.Fs.Naming
import AgentSync.Store.Putting
import AgentSync.Store.Lifecycle
import AgentSync.Store.Saving
import AgentSync.Store.Labels
import AgentSync.Store.Snapshots
import AgentSync.Store.Heads
import AgentSync.Net.Auth
import AgentSync.Net.Ssh
import AgentSync.Net.Identity
import AgentSync.Net.KeyFiles
import AgentSync.Net.Wire
import AgentSync.Net.AuthorizedKeys
import AgentSync.Net.Audit
import AgentSync.Net.Handshake
import AgentSync.Net.Network
import AgentSync.Net.Peers
import AgentSync.Net.Enforcer
import AgentSync.Net.Inbound
import AgentSync.Net.Fetching
import AgentSync.Net.Accept
import AgentSync.Net.Outbound
import AgentSync.Net.Retries
import AgentSync.Net.Registration
import AgentSync.Net.Queue
import AgentSync.Vault.Mutexes
import AgentSync.Sdk.Uplink
import AgentSync.Sdk.Slot
import AgentSync.Sdk.SyncStates
import AgentSync.Sdk.Delivery
import AgentSync.Sdk.Receiving
import AgentSync.Sdk.Storage
import AgentSync.Sdk.Persistence
import AgentSync.Sdk.Controller
import AgentSync.Sdk.Handshake
import AgentSync.Sdk.IdentityFile
import AgentSync.Sdk.Config
import AgentSync.Sdk.Schema
import AgentSync.Sdk.Values
import AgentSync.Sdk.RoundTrip
import AgentSync.Obsidian.Opening
import AgentSync.Obsidian.Trust
import AgentSync.Obsidian.Bridge
import AgentSync.Obsidian.Scheduling
import AgentSync.Obsidian.Reconcile
import AgentSync.Obsidian.Planning
import AgentSync.Obsidian.Calls
import AgentSync.Obsidian.Tasks
import AgentSync.Obsidian.Tokens
import AgentSync.Obsidian.Deletions
import AgentSync.Obsidian.Pulling
import AgentSync.Obsidian.Settings
import AgentSync.Obsidian.PathFilter
import AgentSync.Cli.Watch
import AgentSync.Fs.Provenance
import AgentSync.Cli.Restore
import AgentSync.Cli.Clone
