import Wjetcd.Lib.Runs
import Wjetcd.Lib.Maps
import Wjetcd.Raft.Election
import Wjetcd.Raft.Replication
import Wjetcd.Raft.Leadership
import Wjetcd.Server.Recovery
import Wjetcd.Server.Wire
import Wjetcd.Server.Agreement
import Wjetcd.Lib.Locks
import Wjetcd.Server.Process
import Wjetcd.Server.Locking
import Wjetcd.Raft.Delivery
import Wjetcd.Server.Submit
import Wjetcd.Lib.Json
import Wjetcd.Storage.Wal
import Wjetcd.Lib.Crash
import Wjetcd.Storage.Checkpoint
import Wjetcd.Server.Persist
import Wjetcd.Server.Restart
import Wjetcd.Raft.Outcomes
import Wjetcd.Raft.Voting
import Wjetcd.Raft.Commit
import Wjetcd.Raft.Applied
import Wjetcd.Raft.Durable
import Wjetcd.Raft.Stream
import Wjetcd.Lib.Versions
import Wjetcd.Server.History
import Wjetcd.Server.Watch
import Wjetcd.Server.Heard
import Wjetcd.Lib.Heap
import Wjetcd.Server.Expiry
import Wjetcd.Server.Binding
import Wjetcd.Server.RoundTrip
import Wjetcd.Server.Contest
import Wjetcd.Raft.CatchUp
import Wjetcd.Server.Replicas
import Wjetcd.Server.Exclusion
import Wjetcd.Server.Revoked
import Wjetcd.Raft.Compaction
import Wjetcd.Server.Handles
import Wjetcd.Server.Cleanup
import Wjetcd.Server.Deadline
import Wjetcd.Kv.Prefix
import Wjetcd.Server.Channels
import Wjetcd.Server.Http
import Wjetcd.Raft.Shape
import Wjetcd.Lib.Consensus
import Wjetcd.Raft.Ballots
import Wjetcd.Raft.Entries
import Wjetcd.Raft.Refinement
import Wjetcd.Raft.Safety
import Wjetcd.Raft.Validity
import Wjetcd.Server.Convergence
import Wjetcd.Lib.JsonReader
import Wjetcd.Storage.Records
import Wjetcd.Server.Resumed
import Wjetcd.Server.Durability
import Wjetcd.Server.Dictionary
import Wjetcd.Server.Serving
import Wjetcd.Server.Collection
import Wjetcd.Server.Waiting
import Wjetcd.Server.Shutdown
