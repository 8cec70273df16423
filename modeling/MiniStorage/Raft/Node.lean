import MiniStorage.Raft.Types
import Mathlib.Data.List.DropRight
import Mathlib.Logic.Function.Iterate

namespace MiniStorage.Raft

/-- log_.back(). Every reader but the truncation loop runs on a log that still
holds the sentinel, so the default is never used. -/
def back (log : List LogEntry) : LogEntry := log.getLastD {}

def RaftConfig.others (cfg : RaftConfig) : List Bytes := cfg.peers.filter (· ≠ cfg.nodeId)

def RaftConfig.majority (cfg : RaftConfig) : Nat := cfg.peers.length / 2 + 1

/-- The members of RaftNode that its handlers read or write, the two files of
its data_dir, and what it has done to the state machine above it. Terms and
indices only ever grow by one, so they are unbounded here. -/
structure RaftNode where
  currentTerm : Nat := 0
  votedFor : Bytes := []
  log : List LogEntry := [{}]
  commitIndex : Nat := 0
  lastApplied : Nat := 0
  nextIndex : Bytes → Option Nat := fun _ => none
  matchIndex : Bytes → Option Nat := fun _ => none
  snapshotLastIndex : Nat := 0
  snapshotLastTerm : Nat := 0
  state : RaftState := .follower
  leaderId : Bytes := []
  votesReceived : Nat := 0
  aeResp : AppendEntriesResponse := {}
  /-- The peers a running SendHeartbeats has yet to serve. The loop holds
  state_mutex_ from its first peer to its last. -/
  sending : List Bytes := []
  stateFile : Option StateFile := none
  snapshotFile : Option SnapshotMetadata := none
  upper : List UpperEvent := []

namespace RaftNode

def getLogEntry (n : RaftNode) (index : Nat) : Option LogEntry := n.log.find? (·.index = index)

def persistState (n : RaftNode) : RaftNode :=
  { n with stateFile := some ⟨n.currentTerm, n.votedFor, n.log.tail⟩ }

/-- One turn of the loop in ApplyCommitted. -/
def applyNext (n : RaftNode) : RaftNode :=
  { n with
    lastApplied := n.lastApplied + 1
    upper := n.upper ++ [.applied (n.lastApplied + 1) (n.getLogEntry (n.lastApplied + 1))] }

def applyCommitted (n : RaftNode) (upTo : Nat) : RaftNode := applyNext^[upTo - n.lastApplied] n

/-- The nodes that hold the entry at an index as far as the leader knows, itself included. -/
def replicas (cfg : RaftConfig) (n : RaftNode) (index : Nat) : Nat :=
  1 + (cfg.others.filter fun p => (n.matchIndex p).any (index ≤ ·)).length

def commits (cfg : RaftConfig) (n : RaftNode) (index : Nat) : Bool :=
  (n.getLogEntry index).any (·.term = n.currentTerm) && cfg.majority ≤ n.replicas cfg index

/-- The downward loop of AdvanceCommitIndex, from an index to the commit index. -/
def advanceFrom (cfg : RaftConfig) (n : RaftNode) : Nat → RaftNode
  | 0 => n
  | i + 1 =>
      if i + 1 ≤ n.commitIndex then n
      else if n.commits cfg (i + 1) then { n with commitIndex := i + 1 }.applyCommitted (i + 1)
      else advanceFrom cfg n i

def advanceCommitIndex (cfg : RaftConfig) (n : RaftNode) : RaftNode :=
  n.advanceFrom cfg (back n.log).index

/-- The term change that four handlers make in the same words. -/
def adoptTerm (n : RaftNode) (term : Nat) : RaftNode :=
  { n with currentTerm := term, state := .follower, votedFor := [], leaderId := [] }.persistState

/-- What a request that is not stale does to the term. -/
def catchUp (n : RaftNode) (term : Nat) : RaftNode :=
  if n.currentTerm < term then n.adoptTerm term else n

def becomeFollower (n : RaftNode) (term : Nat) : RaftNode :=
  let n := if n.currentTerm < term then { n with currentTerm := term, votedFor := [] }.persistState else n
  { n with state := .follower, leaderId := [] }

def becomeCandidate (cfg : RaftConfig) (n : RaftNode) : RaftNode :=
  { n with
    state := .candidate
    currentTerm := n.currentTerm + 1
    votedFor := cfg.nodeId
    leaderId := []
    votesReceived := 1 }.persistState

/-- SendHeartbeats up to its loop; `heartbeatRequest` is one turn of the loop. -/
def sendHeartbeats (cfg : RaftConfig) (n : RaftNode) : RaftNode :=
  if n.state = .leader then { n with sending := cfg.others } else n

def prevLogTerm (n : RaftNode) (prevLogIndex : Nat) : Nat :=
  if n.snapshotLastIndex < prevLogIndex then ((n.getLogEntry prevLogIndex).map (·.term)).getD 0
  else if prevLogIndex = n.snapshotLastIndex then n.snapshotLastTerm
  else 0

/-- The request for one peer. The loop does not look at the role again, so the
term is whatever the node's term has become. -/
def heartbeatRequest (cfg : RaftConfig) (n : RaftNode) (peer : Bytes) : AppendEntriesRequest :=
  let nextIdx := (n.nextIndex peer).getD 0
  { term := n.currentTerm
    leaderId := cfg.nodeId
    prevLogIndex := nextIdx - 1
    prevLogTerm := n.prevLogTerm (nextIdx - 1)
    entries := n.log.filter (nextIdx ≤ ·.index)
    leaderCommit := n.commitIndex }

def becomeLeader (cfg : RaftConfig) (n : RaftNode) : RaftNode :=
  let lastLogIndex := max (back n.log).index n.snapshotLastIndex
  { n with
    state := .leader
    leaderId := cfg.nodeId
    nextIndex := fun p => if p ∈ cfg.others then some (lastLogIndex + 1) else none
    matchIndex := fun p => if p ∈ cfg.others then some 0 else none }.sendHeartbeats cfg

/-- The request StartElection captures in its first critical section. -/
def voteRequest (cfg : RaftConfig) (n : RaftNode) : RequestVoteRequest :=
  ⟨n.currentTerm, cfg.nodeId, (back n.log).index, (back n.log).term⟩

/-- The vote a node has left for a candidate whose log is not behind its own. -/
def canVote (n : RaftNode) (req : RequestVoteRequest) : Bool :=
  (n.votedFor = [] ∨ n.votedFor = req.candidateId) ∧
    ((back n.log).term < req.lastLogTerm ∨
      (req.lastLogTerm = (back n.log).term ∧ (back n.log).index ≤ req.lastLogIndex))

def handleRequestVote (n : RaftNode) (req : RequestVoteRequest) : RaftNode × RequestVoteResponse :=
  if req.term < n.currentTerm then (n, ⟨n.currentTerm, false⟩)
  else
    let n := n.catchUp req.term
    if n.canVote req then
      ({ n with votedFor := req.candidateId }.persistState, ⟨n.currentTerm, true⟩)
    else (n, ⟨n.currentTerm, false⟩)

def handleRequestVoteResponse (cfg : RaftConfig) (n : RaftNode) (resp : RequestVoteResponse) :
    RaftNode :=
  if n.currentTerm < resp.term then n.adoptTerm resp.term
  else if n.state ≠ .candidate then n
  else if resp.term < n.currentTerm then n
  else if resp.voteGranted then
    let n := { n with votesReceived := n.votesReceived + 1 }
    if cfg.majority ≤ n.votesReceived then n.becomeLeader cfg else n
  else n

/-- HandleAppendEntries and HandleInstallSnapshot past the check for a stale term. -/
def follow (n : RaftNode) (leader : Bytes) (term : Nat) : RaftNode :=
  { n.catchUp term with leaderId := leader, state := .follower }

/-- The pooled ae_resp_ keeps the match index of an earlier reply where a branch does not set it. -/
def reject (n : RaftNode) (matchIndex : Nat) : RaftNode :=
  { n with aeResp := ⟨n.currentTerm, false, matchIndex⟩ }

/-- `while (log_.back().index >= index) log_.pop_back()`. Popping the sentinel
leaves back() without a meaning. -/
def popFrom (log : List LogEntry) (index : Nat) : Option (List LogEntry) :=
  match log.rdropWhile (index ≤ ·.index) with
  | [] => none
  | rest => some rest

/-- The first position from prev_log_index on whose entry has another term. -/
def firstConflict (n : RaftNode) (req : AppendEntriesRequest) : Option Nat :=
  (List.range' req.prevLogIndex ((back n.log).index + 1 - req.prevLogIndex)).find? fun index =>
    (n.getLogEntry index).any (·.term ≠ req.prevLogTerm)

def truncateConflict (n : RaftNode) (req : AppendEntriesRequest) : Option (List LogEntry) :=
  match n.firstConflict req with
  | none => some n.log
  | some index => popFrom n.log index

/-- The append loop: an entry at or below the last index is passed over unread. -/
def appendNew (log entries : List LogEntry) : List LogEntry :=
  entries.foldl (fun log e => if (back log).index < e.index then log ++ [e] else log) log

def storeEntries (n : RaftNode) (entries : List LogEntry) : RaftNode :=
  { n with log := appendNew n.log entries }.persistState

/-- The follower's commit index stays within the leader's and within its own log. -/
def followCommit (n : RaftNode) (leaderCommit : Nat) : RaftNode :=
  let newCommit := min leaderCommit (back n.log).index
  if n.commitIndex < leaderCommit ∧ n.commitIndex < newCommit then
    { n with commitIndex := newCommit }.applyCommitted newCommit
  else n

/-- HandleAppendEntries from the append loop on. -/
def acceptEntries (n : RaftNode) (req : AppendEntriesRequest) : RaftNode :=
  let n := (n.storeEntries req.entries).followCommit req.leaderCommit
  { n with aeResp := ⟨n.currentTerm, true, (back n.log).index⟩ }

/-- HandleAppendEntries on a node that already follows the sender. -/
def checkEntries (n : RaftNode) (req : AppendEntriesRequest) : Option RaftNode :=
  if (back n.log).index < req.prevLogIndex then some (n.reject (back n.log).index)
  else if n.snapshotLastIndex ≤ req.prevLogIndex then
    if (n.getLogEntry req.prevLogIndex).any (·.term ≠ req.prevLogTerm) then
      (n.truncateConflict req).map fun log =>
        ({ n with log := log }.reject (back log).index).persistState
    else some (n.acceptEntries req)
  else if req.prevLogIndex ≠ n.snapshotLastIndex ∨ req.prevLogTerm ≠ n.snapshotLastTerm then
    some (n.reject n.snapshotLastIndex)
  else some (n.acceptEntries req)

/-- The reply is the node's `aeResp` afterwards; nothing comes back where the
source calls back() on an empty log. -/
def handleAppendEntries (n : RaftNode) (leader : Bytes) (req : AppendEntriesRequest) :
    Option RaftNode :=
  if req.term < n.currentTerm then
    some { n with aeResp := { n.aeResp with term := n.currentTerm, success := false } }
  else (n.follow leader req.term).checkEntries req

def handleAppendEntriesResponse (cfg : RaftConfig) (n : RaftNode) (peer : Bytes)
    (resp : AppendEntriesResponse) : RaftNode :=
  if n.currentTerm < resp.term then n.adoptTerm resp.term
  else if n.state ≠ .leader then n
  else if resp.success then
    { n with
      matchIndex := Function.update n.matchIndex peer (some resp.matchIndex)
      nextIndex := Function.update n.nextIndex peer (some (resp.matchIndex + 1)) }.advanceCommitIndex cfg
  else if resp.matchIndex < (n.nextIndex peer).getD 0 then
    { n with
      nextIndex := Function.update n.nextIndex peer
        (some (max (max (resp.matchIndex + 1) (n.snapshotLastIndex + 1)) 1)) }
  else n

/-- The sentinel and the entries behind a snapshot position. -/
def trimLog (log : List LogEntry) (index : Nat) : List LogEntry :=
  log.take 1 ++ log.tail.filter (index < ·.index)

def handleInstallSnapshot (n : RaftNode) (leader : Bytes) (req : InstallSnapshotRequest) :
    RaftNode × InstallSnapshotResponse :=
  if req.term < n.currentTerm then (n, ⟨n.currentTerm, false⟩)
  else
    let n := n.follow leader req.term
    -- the source compares the new index with the old snapshot's term here
    if req.lastIncludedIndex ≤ n.snapshotLastTerm ∨ req.lastIncludedIndex ≤ n.commitIndex then
      (n, ⟨n.currentTerm, true⟩)
    else
      let n := { n with
        snapshotFile := some ⟨req.lastIncludedIndex, req.lastIncludedTerm, req.snapshotData⟩
        upper := if req.snapshotData = [] then n.upper else n.upper ++ [UpperEvent.restored req.snapshotData]
        snapshotLastIndex := req.lastIncludedIndex
        snapshotLastTerm := req.lastIncludedTerm
        log := trimLog n.log req.lastIncludedIndex }
      let n := if n.commitIndex < n.snapshotLastIndex then
          { n with commitIndex := n.snapshotLastIndex, lastApplied := n.snapshotLastIndex }
        else n
      (n.persistState, ⟨n.currentTerm, true⟩)

/-- The first critical section of Propose, on a leader: the entry it appends. -/
def propose (cfg : RaftConfig) (n : RaftNode) (command : Bytes) : RaftNode × LogEntry :=
  let entry : LogEntry := ⟨n.currentTerm, (back n.log).index + 1, command⟩
  let n := { n with log := n.log ++ [entry] }.persistState
  ({ n with
      nextIndex := Function.update n.nextIndex cfg.nodeId (some (entry.index + 1))
      matchIndex := Function.update n.matchIndex cfg.nodeId (some entry.index) }, entry)

/-- The first critical section of TakeSnapshot; `data` is what snapshot_cb_ returned. -/
def captureSnapshot (n : RaftNode) (data : Bytes) : Option SnapshotMetadata :=
  if n.lastApplied ≤ n.snapshotLastIndex then none
  else some ⟨n.lastApplied, ((n.getLogEntry n.lastApplied).map (·.term)).getD n.currentTerm, data⟩

/-- The last critical section of TakeSnapshot. -/
def trimSnapshot (n : RaftNode) (snap : SnapshotMetadata) : RaftNode :=
  { n with
    snapshotLastIndex := snap.lastIncludedIndex
    snapshotLastTerm := snap.lastIncludedTerm
    log := trimLog n.log snap.lastIncludedIndex }.persistState

def restoreState (n : RaftNode) : RaftNode :=
  match n.stateFile with
  | none => n
  | some file =>
      let log := {} :: file.entries
      { n with
        currentTerm := file.term
        votedFor := if file.votedFor = [] then n.votedFor else file.votedFor
        log := log
        commitIndex := (back log).index
        lastApplied := (back log).index }

def restoreFromSnapshot (n : RaftNode) : RaftNode :=
  match n.snapshotFile with
  | none => n
  | some snap =>
      let n := { n with
        upper := if snap.metadataStoreData = [] then n.upper
          else n.upper ++ [UpperEvent.restored snap.metadataStoreData]
        snapshotLastTerm := snap.lastIncludedTerm
        snapshotLastIndex := snap.lastIncludedIndex }
      if n.commitIndex < n.snapshotLastIndex then
        { n with commitIndex := n.snapshotLastIndex, lastApplied := n.snapshotLastIndex }
      else n

/-- Start() on a freshly constructed node over the files of its data_dir. -/
def start (stateFile : Option StateFile) (snapshotFile : Option SnapshotMetadata) : RaftNode :=
  let n := { stateFile, snapshotFile : RaftNode }.restoreState.restoreFromSnapshot
  n.becomeFollower n.currentTerm

end RaftNode

end MiniStorage.Raft
