import AdkAerospike.Program.Pool
import AdkAerospike.Program.Cut
import AdkAerospike.Program.Owing
import AdkAerospike.Data.OrderedMap
import AdkAerospike.Keys
import AdkAerospike.Server
import AdkAerospike.Codec
import AdkAerospike.Sessions.State
import AdkAerospike.Sessions.Records
import AdkAerospike.Sessions.Alone.Read
import AdkAerospike.Sessions.Alone.Create
import AdkAerospike.Sessions.Concurrent.ExactlyOnce
import AdkAerospike.Sessions.Concurrent.History
import AdkAerospike.Sessions.Concurrent.Holes
import AdkAerospike.Sessions.Alone.Append
import AdkAerospike.Sessions.Alone.Oversized
import AdkAerospike.Sessions.Alone.Delete
import AdkAerospike.Sessions.Sequential.Ledger
import AdkAerospike.Sessions.Sequential.Reappend
import AdkAerospike.Sessions.Sequential.UpdateTime
import AdkAerospike.Sessions.Manifest.Consistent
import AdkAerospike.Sessions.Manifest.Crash
import AdkAerospike.Sessions.Manifest.Race
import AdkAerospike.Sessions.Isolation
import AdkAerospike.Sessions.Sound
import AdkAerospike.Artifacts.Service
import AdkAerospike.Artifacts.Files
import AdkAerospike.Artifacts.Concurrent
import AdkAerospike.Artifacts.Alone
import AdkAerospike.Artifacts.Deleting
import AdkAerospike.Artifacts.Reference
import AdkAerospike.Memory.Service
import AdkAerospike.Memory.Alone
import AdkAerospike.Memory.Index
import AdkAerospike.Program.Sum
import AdkAerospike.Tenants.Parallel
import AdkAerospike.Memory.Parallel
import AdkAerospike.Memory.Sound
import AdkAerospike.Memory.Errors
import AdkAerospike.Server.Parties
import AdkAerospike.Tenants
import AdkAerospike.Sessions.Sequential.Reference
import AdkAerospike.Sessions.Sequential.Refinement
import AdkAerospike.Sessions.Parallel
import AdkAerospike.Sessions.Alone.ReadFaults
import AdkAerospike.Data.Ranking
import AdkAerospike.Memory.Search
import AdkAerospike.Memory.Fresh
import AdkAerospike.Memory.Retry
import AdkAerospike.Memory.Trimming
import AdkAerospike.Sessions.Concurrent.RollOver
import AdkAerospike.Program.Landing
import AdkAerospike.Sessions.Concurrent.StateWrites
import AdkAerospike.Memory.Resume
import AdkAerospike.Sessions.Alone.Paths
import AdkAerospike.Sessions.Concurrent.Indices
import AdkAerospike.Sessions.Concurrent.Converge
import AdkAerospike.Artifacts.Footprint
import AdkAerospike.Artifacts.Parts
import AdkAerospike.Artifacts.Failing
import AdkAerospike.Artifacts.Snapshots
import AdkAerospike.Artifacts.Errors
import AdkAerospike.Data.Split
import AdkAerospike.Uri.Library
import AdkAerospike.Uri.Parse
import AdkAerospike.Uri.Malformed
import AdkAerospike.Uri.Options
import AdkAerospike.Program.Once
import AdkAerospike.Sessions.Growth
import AdkAerospike.Sessions.Errors
import AdkAerospike.Setup.Schema
import AdkAerospike.Setup.Services
