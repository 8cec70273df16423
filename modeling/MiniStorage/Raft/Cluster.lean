import MiniStorage.Raft.Node
import MiniStorage.Runs

namespace MiniStorage.Raft

/-- Where the timer thread stands between its critical sections. -/
inductive TimerPc
  | idle
  /-- OnElectionTimeout has read the role LEADER. -/
  | heartbeats
  /-- OnElectionTimeout has read another role. -/
  | candidacy
  /-- BecomeCandidate is done, StartElection is next. -/
  | election
  /-- StartElection has sent its requests. -/
  | tally
  /-- StartElection has seen a majority and released the mutex. -/
  | leadership
deriving DecidableEq, Repr

/-- Where a Propose call stands between its critical sections. -/
inductive ProposePc
  | advance
  | send
  | wait
  | returned (committed : Bool)
deriving DecidableEq, Repr

/-- A Propose call on a leader; `entry` is its local variable. -/
structure ProposeCall where
  entry : LogEntry
  pc : ProposePc
deriving DecidableEq, Repr

/-- A TakeSnapshot call past its first critical section. -/
structure SnapshotCall where
  snap : SnapshotMetadata
  written : Bool
deriving DecidableEq, Repr

/-- A node and the threads that run on it. The health check thread is the only
caller of TakeSnapshot, so at most one such call is under way. -/
structure Process where
  node : RaftNode
  timer : TimerPc := .idle
  calls : List ProposeCall := []
  snapshot : Option SnapshotCall := none

structure Packet where
  src : Bytes
  dst : Bytes
  msg : RaftMessage
deriving DecidableEq, Repr

/-- The nodes and the messages in flight, in no particular order. -/
structure Cluster where
  procs : Bytes → Process
  net : List Packet

def Cluster.node (c : Cluster) (id : Bytes) : RaftNode := (c.procs id).node

def Cluster.put (c : Cluster) (id : Bytes) (p : Process) (net : List Packet) : Cluster :=
  ⟨Function.update c.procs id p, net⟩

inductive Action
  | timer (id : Bytes)
  /-- One turn of the loop in SendHeartbeats. -/
  | heartbeat (id : Bytes)
  | propose (id command : Bytes)
  /-- The next critical section of a Propose call; `expired` says that its deadline has passed. -/
  | proposeNext (id : Bytes) (call : Nat) (expired : Bool)
  /-- The next section of TakeSnapshot; `data` is what snapshot_cb_ returns. -/
  | snapshot (id data : Bytes)
  | deliver (p : Packet)
  | lose (p : Packet)
  /-- The process stops and is started again over its files. -/
  | restart (id : Bytes)
  /-- The same in the middle of a handler, after the PersistState of its term change. -/
  | crashHandling (p : Packet)
deriving DecidableEq, Repr

def RaftMessage.term : RaftMessage → Nat
  | .requestVote req => req.term
  | .requestVoteResponse resp => resp.term
  | .appendEntries req => req.term
  | .appendEntriesResponse resp => resp.term
  | .installSnapshot req => req.term
  | .installSnapshotResponse resp => resp.term

namespace Process

def timerStep (cfg : RaftConfig) (p : Process) : Process × List Packet :=
  match p.timer with
  | .idle => ({ p with timer := if p.node.state = .leader then .heartbeats else .candidacy }, [])
  | .heartbeats => ({ p with node := p.node.sendHeartbeats cfg, timer := .idle }, [])
  | .candidacy => ({ p with node := p.node.becomeCandidate cfg, timer := .election }, [])
  | .election =>
      ({ p with timer := .tally },
        cfg.others.map fun peer => ⟨cfg.nodeId, peer, .requestVote (p.node.voteRequest cfg)⟩)
  | .tally =>
      ({ p with timer := if p.node.state = .candidate ∧ cfg.majority ≤ p.node.votesReceived
          then .leadership else .idle }, [])
  | .leadership => ({ p with node := p.node.becomeLeader cfg, timer := .idle }, [])

def proposeStep (cfg : RaftConfig) (p : Process) (command : Bytes) : Process :=
  if p.node.state = .leader then
    let (node, entry) := p.node.propose cfg command
    { p with node := node, calls := p.calls ++ [⟨entry, .advance⟩] }
  else p

/-- The wait loop looks at the commit index first, then at the role. -/
def waitNext (n : RaftNode) (call : ProposeCall) (expired : Bool) : ProposePc :=
  if call.entry.index ≤ n.commitIndex then .returned true
  else if n.state ≠ .leader ∨ expired then .returned false
  else .wait

def proposeNextStep (cfg : RaftConfig) (p : Process) (k : Nat) (expired : Bool) : Option Process :=
  match p.calls[k]? with
  | none => none
  | some call =>
      match call.pc with
      | .advance => some { p with
          node := p.node.advanceCommitIndex cfg
          calls := p.calls.set k { call with pc := .send } }
      | .send => some { p with
          node := p.node.sendHeartbeats cfg
          calls := p.calls.set k { call with pc := .wait } }
      | .wait => some { p with calls := p.calls.set k { call with pc := waitNext p.node call expired } }
      | .returned _ => none

def snapshotStep (p : Process) (data : Bytes) : Option Process :=
  match p.snapshot with
  | none => (p.node.captureSnapshot data).map fun snap => { p with snapshot := some ⟨snap, false⟩ }
  | some ⟨snap, false⟩ => some { p with
      node := { p.node with snapshotFile := some snap }
      snapshot := some ⟨snap, true⟩ }
  | some ⟨snap, true⟩ => some { p with node := p.node.trimSnapshot snap, snapshot := none }

/-- RaftRPC's dispatch: what a message does to the node, and the reply it sends back. -/
def handle (cfg : RaftConfig) (n : RaftNode) (src : Bytes) :
    RaftMessage → Option (RaftNode × Option RaftMessage)
  | .requestVote req =>
      let (n, resp) := n.handleRequestVote req
      some (n, some (.requestVoteResponse resp))
  | .requestVoteResponse resp => some (n.handleRequestVoteResponse cfg resp, none)
  | .appendEntries req =>
      (n.handleAppendEntries req.leaderId req).map fun n => (n, some (.appendEntriesResponse n.aeResp))
  | .appendEntriesResponse resp => some (n.handleAppendEntriesResponse cfg src resp, none)
  | .installSnapshot req =>
      let (n, resp) := n.handleInstallSnapshot req.leaderId req
      some (n, some (.installSnapshotResponse resp))
  | .installSnapshotResponse _ => some (n, none)

def restart (n : RaftNode) : Process := { node := RaftNode.start n.stateFile n.snapshotFile }

end Process

/-- The loop of SendHeartbeats keeps every handler out but the one for the
replies to its own requests, which runs on the same thread. -/
def free (n : RaftNode) (msg : RaftMessage) : Bool :=
  match msg with
  | .appendEntriesResponse _ => true
  | _ => n.sending = []

/-! Three nodes, for runs on fixed inputs -/

namespace Trio

def a : Bytes := [97]
def b : Bytes := [98]
def c : Bytes := [99]
def peers : List Bytes := [a, b, c]

/-- A node becomes leader with the vote of one other, and its first heartbeats go out. -/
def election (id voter : Bytes) (term lastLogIndex lastLogTerm : Nat) : List Action :=
  [.timer id, .timer id, .timer id,
    .deliver ⟨id, voter, .requestVote ⟨term, id, lastLogIndex, lastLogTerm⟩⟩,
    .deliver ⟨voter, id, .requestVoteResponse ⟨term, true⟩⟩, .heartbeat id, .heartbeat id, .timer id]

/-- A leader's timer sends both requests out. -/
def heartbeats (id : Bytes) : List Action := [.timer id, .timer id, .heartbeat id, .heartbeat id]

/-- A follower takes a request over, and its answer arrives. -/
def exchange (id peer : Bytes) (req : AppendEntriesRequest) (matchIndex : Nat) : List Action :=
  [.deliver ⟨id, peer, .appendEntries req⟩,
    .deliver ⟨peer, id, .appendEntriesResponse ⟨req.term, true, matchIndex⟩⟩]

end Trio

variable (peers : List Bytes)

def start : Cluster := ⟨fun _ => { node := RaftNode.start none none }, []⟩

/-- One step of the cluster whose nodes are exactly the members of `peers`. -/
def step (c : Cluster) : Action → Option Cluster
  | .timer id =>
      let p := c.procs id
      if id ∈ peers ∧ p.node.sending = [] then
        let (p, packets) := p.timerStep ⟨id, peers⟩
        some (c.put id p (packets ++ c.net))
      else none
  | .heartbeat id =>
      let p := c.procs id
      match p.node.sending with
      | [] => none
      | peer :: rest =>
          let packet := ⟨id, peer, .appendEntries (p.node.heartbeatRequest ⟨id, peers⟩ peer)⟩
          some (c.put id { p with node := { p.node with sending := rest } } (packet :: c.net))
  | .propose id command =>
      let p := c.procs id
      if id ∈ peers ∧ p.node.sending = [] then
        some (c.put id (p.proposeStep ⟨id, peers⟩ command) c.net)
      else none
  | .proposeNext id k expired =>
      let p := c.procs id
      if id ∈ peers ∧ p.node.sending = [] then
        (p.proposeNextStep ⟨id, peers⟩ k expired).map fun p => c.put id p c.net
      else none
  | .snapshot id data =>
      let p := c.procs id
      -- the file is written and renamed without the mutex
      if id ∈ peers ∧ (p.node.sending = [] ∨ p.snapshot.any (!·.written)) then
        (p.snapshotStep data).map fun p => c.put id p c.net
      else none
  | .deliver packet =>
      let p := c.procs packet.dst
      if packet ∈ c.net ∧ packet.dst ∈ peers ∧ free p.node packet.msg then
        (Process.handle ⟨packet.dst, peers⟩ p.node packet.src packet.msg).map fun (node, reply) =>
          c.put packet.dst { p with node := node }
            ((reply.map (Packet.mk packet.dst packet.src)).toList ++ c.net.erase packet)
      else none
  | .lose packet => if packet ∈ c.net then some { c with net := c.net.erase packet } else none
  | .restart id => if id ∈ peers then some (c.put id (Process.restart (c.node id)) c.net) else none
  | .crashHandling packet =>
      let n := c.node packet.dst
      if packet ∈ c.net ∧ packet.dst ∈ peers ∧ free n packet.msg ∧ n.currentTerm < packet.msg.term then
        some (c.put packet.dst (Process.restart (n.adoptTerm packet.msg.term)) (c.net.erase packet))
      else none

end MiniStorage.Raft
