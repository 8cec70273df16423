import MiniStorage.Raft.Cluster

namespace MiniStorage.Raft

/-- No process stops. -/
def noCrash : Action → Bool
  | .restart _ | .crashHandling _ => false
  | _ => true

def noSnapshot : Action → Bool
  | .snapshot _ _ => false
  | _ => true

namespace RaftNode

/-- HandleAppendEntries gets as far as its append loop. -/
def passes (n : RaftNode) (req : AppendEntriesRequest) : Bool :=
  n.currentTerm ≤ req.term && n.snapshotLastIndex ≤ req.prevLogIndex &&
    req.prevLogIndex ≤ (back n.log).index &&
    (n.getLogEntry req.prevLogIndex).all (·.term = req.prevLogTerm)

/-- HandleAppendEntries gets as far as its truncation. -/
def truncates (n : RaftNode) (req : AppendEntriesRequest) : Bool :=
  n.currentTerm ≤ req.term && n.snapshotLastIndex ≤ req.prevLogIndex &&
    req.prevLogIndex ≤ (back n.log).index &&
    (n.getLogEntry req.prevLogIndex).any (·.term ≠ req.prevLogTerm)

theorem truncates_of {n : RaftNode} {req : AppendEntriesRequest} {e : LogEntry} (hterm : n.currentTerm ≤ req.term)
    (hsnap : n.snapshotLastIndex ≤ req.prevLogIndex) (hback : req.prevLogIndex ≤ (back n.log).index)
    (he : n.getLogEntry req.prevLogIndex = some e) (hne : e.term ≠ req.prevLogTerm) : n.truncates req = true := by
  simp only [truncates, Bool.and_eq_true, decide_eq_true_eq, he, Option.any_some]
  exact ⟨⟨⟨hterm, hsnap⟩, hback⟩, hne⟩

/-- The log ends at the entry the request builds on, or with an entry of the request. -/
def endsIn (n : RaftNode) (req : AppendEntriesRequest) : Bool :=
  (back n.log).index ≤ req.prevLogIndex ||
    req.entries.any fun e => e.index = (back n.log).index && e.term = (back n.log).term

/-- A vote for this log is no vote against what the voter's snapshot covers. -/
def covers (n : RaftNode) (req : RequestVoteRequest) : Bool :=
  n.snapshotLastIndex ≤ (back n.log).index || n.snapshotLastTerm < req.lastLogTerm ||
    req.lastLogTerm = n.snapshotLastTerm && n.snapshotLastIndex ≤ req.lastLogIndex

end RaftNode

/-- The append loop passes over what a follower's log holds past the previous
entry without a look at its term. Here it only adds to a log that ends in the request. -/
def extendsMatch (c : Cluster) : Action → Bool
  | .deliver ⟨_, dst, .appendEntries req⟩ =>
      let n := c.node dst
      n.passes req && req.entries.any (fun e => (back n.log).index < e.index) → n.endsIn req
  | _ => true

/-- A follower says success only with a log that ends in the request or in the sender's term. -/
def acceptsMatch (c : Cluster) : Action → Bool
  | .deliver ⟨_, dst, .appendEntries req⟩ =>
      let n := c.node dst
      n.passes req → n.endsIn req || (back n.log).term = req.term
  | _ => true

/-- HandleAppendEntriesResponse does not turn a reply from an earlier term away,
as HandleRequestVoteResponse does. Here a leader gets no such success. -/
def countsOwnTerm (c : Cluster) : Action → Bool
  | .deliver ⟨_, dst, .appendEntriesResponse resp⟩ =>
      (c.node dst).state = .leader && resp.success → (c.node dst).currentTerm ≤ resp.term
  | _ => true

/-- SendHeartbeats looks at the role once, before its loop. -/
def sendsAsLeader (c : Cluster) : Action → Bool
  | .heartbeat id => (c.node id).state = .leader
  | _ => true

/-- Propose calls AdvanceCommitIndex in a second critical section without a look at the role. -/
def advancesAsLeader (c : Cluster) : Action → Bool
  | .proposeNext id k _ =>
      ((c.procs id).calls[k]?).any (·.pc = .advance) → (c.node id).state = .leader
  | _ => true

/-- SendHeartbeats has no term for a previous entry below the snapshot. -/
def sendsAboveSnapshot (peers : List Bytes) (c : Cluster) : Action → Bool
  | .heartbeat id => (c.node id).sending.head?.all fun peer =>
      (c.node id).snapshotLastIndex ≤ ((c.node id).heartbeatRequest ⟨id, peers⟩ peer).prevLogIndex
  | _ => true

/-- HandleRequestVote compares with the sentinel when a snapshot has left nothing else. -/
def votesAboveSnapshot (c : Cluster) : Action → Bool
  | .deliver ⟨_, dst, .requestVote req⟩ =>
      (c.node dst).currentTerm ≤ req.term && ((c.node dst).catchUp req.term).canVote req →
        (c.node dst).covers req
  | _ => true

/-- Propose numbers on from the sentinel when a snapshot has left nothing else. -/
def proposesAboveSnapshot (c : Cluster) : Action → Bool
  | .propose id _ => (c.node id).state = .leader → (c.node id).snapshotLastIndex ≤ (back (c.node id).log).index
  | _ => true

/-- A Propose call that has yet to return, and whose index is not committed. -/
def ProposeCall.pending (n : RaftNode) (call : ProposeCall) : Bool :=
  call.pc ≠ .returned true && call.pc ≠ .returned false && n.commitIndex < call.entry.index

/-- The wait loop of Propose does not look whether its entry is still in the log.
Here HandleAppendEntries cuts off none that a call is waiting for. -/
def keepsPending (c : Cluster) : Action → Bool
  | .deliver ⟨_, dst, .appendEntries req⟩ =>
      (c.node dst).truncates req → (c.procs dst).calls.all fun call =>
        call.pending (c.node dst) → call.entry.index < req.prevLogIndex
  | _ => true

/-- No truncation takes the log back to before what is applied. -/
def keepsApplied (n : RaftNode) (req : AppendEntriesRequest) : Bool :=
  n.truncates req → (RaftNode.popFrom n.log req.prevLogIndex).all fun log =>
    n.lastApplied ≤ n.snapshotLastIndex || n.lastApplied ≤ (back log).index

/-- A node goes on after a restart: it does not stop again, takes no snapshot and keeps what it has applied. -/
def goesOn (id : Bytes) (c : Cluster) : Action → Bool
  | .restart w | .snapshot w _ => w ≠ id
  | .crashHandling packet => packet.dst ≠ id
  | .deliver ⟨_, dst, .appendEntries req⟩ => dst = id → keepsApplied (c.node id) req
  | _ => true

/-- Propose gives out an index that is not committed yet. -/
def proposesAboveCommit (c : Cluster) : Action → Bool
  | .propose id _ => (c.node id).state = .leader → (c.node id).commitIndex ≤ (back (c.node id).log).index
  | _ => true

/-- A snapshot leaves a leader whose match index says more than the sentinel does with an entry at the end of its log. -/
def keepsLast (peers : List Bytes) (c : Cluster) : Action → Bool
  | .snapshot id _ => match (c.procs id).snapshot with
      | some ⟨snap, true⟩ => (c.node id).state = .leader → snap.lastIncludedIndex < (back (c.node id).log).index ||
          (RaftConfig.mk id peers).others.all fun q => ((c.node id).matchIndex q).all (· = 0)
      | _ => true
  | .deliver ⟨_, dst, .appendEntriesResponse resp⟩ => (c.node dst).state = .leader && resp.success →
      (c.node dst).snapshotLastIndex ≤ (back (c.node dst).log).index
  | _ => true

/-- The steps at which the code does what the replication protocol asks for. -/
def sound (peers : List Bytes) (c : Cluster) (a : Action) : Bool :=
  acceptsMatch c a && countsOwnTerm c a && sendsAsLeader c a && advancesAsLeader c a &&
    sendsAboveSnapshot peers c a && votesAboveSnapshot c a && proposesAboveSnapshot c a

end MiniStorage.Raft
