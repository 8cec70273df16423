import MiniStorage.Bytes

namespace MiniStorage.Raft

inductive RaftState
  | follower
  | candidate
  | leader
deriving DecidableEq, Repr

structure RaftConfig where
  nodeId : Bytes
  peers : List Bytes
deriving Repr

/-- The default value is the sentinel the constructor puts at the front of the log. -/
structure LogEntry where
  term : Nat := 0
  index : Nat := 0
  command : Bytes := []
deriving DecidableEq, Repr

structure RequestVoteRequest where
  term : Nat
  candidateId : Bytes
  lastLogIndex : Nat
  lastLogTerm : Nat
deriving DecidableEq, Repr

structure RequestVoteResponse where
  term : Nat
  voteGranted : Bool
deriving DecidableEq, Repr

structure AppendEntriesRequest where
  term : Nat
  leaderId : Bytes
  prevLogIndex : Nat
  prevLogTerm : Nat
  entries : List LogEntry
  leaderCommit : Nat
deriving DecidableEq, Repr

structure AppendEntriesResponse where
  term : Nat := 0
  success : Bool := false
  matchIndex : Nat := 0
deriving DecidableEq, Repr

structure InstallSnapshotRequest where
  term : Nat
  leaderId : Bytes
  lastIncludedIndex : Nat
  lastIncludedTerm : Nat
  snapshotData : Bytes
deriving DecidableEq, Repr

structure InstallSnapshotResponse where
  term : Nat
  success : Bool
deriving DecidableEq, Repr

inductive RaftMessage
  | requestVote (req : RequestVoteRequest)
  | requestVoteResponse (resp : RequestVoteResponse)
  | appendEntries (req : AppendEntriesRequest)
  | appendEntriesResponse (resp : AppendEntriesResponse)
  | installSnapshot (req : InstallSnapshotRequest)
  | installSnapshotResponse (resp : InstallSnapshotResponse)
deriving DecidableEq, Repr

/-- What an intact raft_snapshot.dat holds. -/
structure SnapshotMetadata where
  lastIncludedIndex : Nat
  lastIncludedTerm : Nat
  metadataStoreData : Bytes
deriving DecidableEq, Repr

/-- What an intact raft_state.dat holds: the term, the vote and the log behind the sentinel. -/
structure StateFile where
  term : Nat
  votedFor : Bytes
  entries : List LogEntry
deriving DecidableEq, Repr

/-- What a node did to the state machine above it: one turn of the loop in
ApplyCommitted, with the entry GetLogEntry found, or one call of restore_cb_. -/
inductive UpperEvent
  | applied (index : Nat) (entry : Option LogEntry)
  | restored (data : Bytes)
deriving DecidableEq, Repr

/-- The apply_cb_ invocations: a missing entry or an empty command invokes nothing. -/
def applyCalls (events : List UpperEvent) : List (Nat × Bytes) :=
  events.filterMap fun
    | .applied i (some e) => if e.command = [] then none else some (i, e.command)
    | _ => none

end MiniStorage.Raft
