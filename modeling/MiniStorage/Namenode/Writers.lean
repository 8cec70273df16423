import MiniStorage.Namenode.Replicas
import MiniStorage.Raft.Propose
import MiniStorage.Runs

namespace MiniStorage.Namenode

open Raft

/-- Where a worker thread stands in ProposeWrite. The stages from `advance` on know the entry that Propose appended. -/
inductive WriteStage
  | checkLeader
  | propose (command : Bytes)
  | advance (entry : LogEntry)
  | waiting (entry : LogEntry)
  | readFile (entry : LogEntry)
  | readBlock (entry : LogEntry) (lastBid : BlockId)
  | done (entry : Option LogEntry) (resp : NameNodeResponse)

namespace WriteStage

def entry : WriteStage → Option LogEntry
  | .checkLeader | .propose _ => none
  | .advance e | .waiting e | .readFile e | .readBlock e _ => some e
  | .done e _ => e

/-- The next section of the thread takes state_mutex_. -/
def locks : WriteStage → Bool
  | .checkLeader | .propose _ | .advance _ | .waiting _ => true
  | .readFile _ | .readBlock _ _ | .done _ _ => false

end WriteStage

structure Writer where
  req : NameNodeRequest
  stage : WriteStage := .checkLeader

/-- A call of apply_cb_: the index, the command as it was parsed, and the block that ApplyAllocateBlock allocated. -/
structure ApplyCall where
  index : Nat
  req : Option NameNodeRequest
  block : Option BlockInfo

/-- A NameNode that leads its cluster, and its write requests. -/
structure LeaderServer where
  core : NameNode := {}
  raft : RaftNode := {}
  /-- What ApplyCommitted has yet to hand to apply_cb_. The thread that runs it holds state_mutex_ to the end. -/
  calls : List (Nat × Bytes) := []
  applied : List ApplyCall := []
  /-- The snapshots that are being saved, between the two critical sections of TakeSnapshot. -/
  captured : List SnapshotMetadata := []
  writers : List Writer := []

inductive LeaderAction
  | accept (req : NameNodeRequest)
  | work (i : Nat)
  | timeout (i : Nat)
  | apply (t : Moment)
  | reply (peer : Bytes) (resp : AppendEntriesResponse)
  | vote (req : RequestVoteRequest)
  | capture (data : Bytes)
  | trim (snap : SnapshotMetadata)
  | locally (e : LocalEvent)

/-- What ProposeWrite finds in the list of the file that a request names. -/
def NameNode.lastBlock (n : NameNode) (path : FilePath) : Option BlockId :=
  (n.metadata.getFile path).bind fun f => f.blocks.getLast?

namespace LeaderServer

variable (w : Wire NameNodeRequest) (cfg : RaftConfig)

/-- A section under state_mutex_ leaves the node so; what it committed is handed on before the mutex is free. -/
def lock (s : LeaderServer) (raft : RaftNode) : LeaderServer :=
  { s with raft := raft, calls := applyCalls (raft.upper.drop s.raft.upper.length) }

def answer (req : NameNodeRequest) (resp : NameNodeResponse) : NameNodeResponse :=
  { resp with requestId := req.requestId }

/-- One section of ProposeWrite. SendHeartbeats, between `advance` and `waiting`, only sends; what comes back is an
action of its own. -/
def write (s : LeaderServer) (req : NameNodeRequest) : WriteStage → Option (WriteStage × LeaderServer)
  | .checkLeader =>
      if s.raft.state ≠ .leader then
        some (.done none (answer req (NameNode.failure (text "Not leader. Leader: " ++ s.raft.leaderId))), s)
      else match w.serialize req with
        | none => some (.done none (answer req (NameNode.failure (text "Failed to serialize command"))), s)
        | some command => some (.propose command, s)
  | .propose command =>
      if s.raft.state ≠ .leader then
        some (.done none (answer req (NameNode.failure (text "Not leader anymore. Leader: " ++ s.raft.leaderId))), s)
      else some (.advance (s.raft.propose cfg command).2, s.lock (s.raft.propose cfg command).1)
  | .advance entry => some (.waiting entry, s.lock (s.raft.advanceCommitIndex cfg))
  | .waiting entry =>
      if entry.index ≤ s.raft.commitIndex then some (.readFile entry, s)
      else if s.raft.state ≠ .leader then
        some (.done entry (answer req (NameNode.failure (text "Not leader anymore. Leader: " ++ s.raft.leaderId))), s)
      else none
  | .readFile entry =>
      match req.op, s.core.lastBlock (req.allocateBlock.getD {}).filePath with
      | .allocateBlock, some lastBid => some (.readBlock entry lastBid, s)
      | _, _ => some (.done entry (answer req (s.core.writeResponse req)), s)
  | .readBlock entry lastBid =>
      some (.done entry (answer req
        { success := true
          allocateBlock := some {
            success := true
            blockId := lastBid
            datanodeAddresses := ((s.core.metadata.getBlock lastBid).map BlockInfo.locations).getD [] } }), s)
  | .done _ _ => none

/-- The first of the calls that are due. -/
def applyCall (s : LeaderServer) (t : Moment) : Option LeaderServer :=
  match s.calls with
  | [] => none
  | (index, command) :: rest =>
      some { s with
        core := (s.core.onApplyCommitted w command t).2
        calls := rest
        applied := s.applied ++ [⟨index, w.parse command, (s.core.onApplyCommitted w command t).1⟩] }

def step (s : LeaderServer) : LeaderAction → Option LeaderServer
  | .accept req => if NameNode.isWrite req then some { s with writers := s.writers ++ [{ req := req }] } else none
  | .work i =>
      match s.writers[i]? with
      | none => none
      | some x =>
          if x.stage.locks ∧ s.calls ≠ [] then none
          else (s.write w cfg x.req x.stage).map fun (stage, s') =>
            { s' with writers := s.writers.set i { x with stage := stage } }
  | .timeout i =>
      match s.writers[i]? with
      | some ⟨req, .waiting entry⟩ => some { s with
          writers := s.writers.set i
            ⟨req, .done entry (answer req (NameNode.failure (text "Request timed out (not committed)")))⟩ }
      | _ => none
  | .apply t => s.applyCall w t
  | .reply peer resp => if s.calls = [] then some (s.lock (s.raft.handleAppendEntriesResponse cfg peer resp)) else none
  | .vote req => if s.calls = [] then some (s.lock (s.raft.handleRequestVote req).1) else none
  | .capture data =>
      if s.calls = [] then
        (s.raft.captureSnapshot data).map fun snap => { s with captured := s.captured ++ [snap] }
      else none
  | .trim snap => if s.calls = [] ∧ snap ∈ s.captured then some (s.lock (s.raft.trimSnapshot snap)) else none
  | .locally e => some { s with core := s.core.locally e }

variable {w cfg}

/-- Where nothing comes between the reads of a worker, it answers what the tables say. -/
theorem write_readFile (s : LeaderServer) (req : NameNodeRequest) (e : LogEntry) :
    ∃ stage, s.write w cfg req (.readFile e) = some (stage, s) ∧
      (stage = .done e (answer req (s.core.writeResponse req)) ∨
        s.write w cfg req stage = some (.done e (answer req (s.core.writeResponse req)), s)) := by
  rw [write]
  split
  next bid hop hbid =>
    refine ⟨_, rfl, .inr ?_⟩
    have hlast : ((s.core.metadata.getFile (req.allocateBlock.getD {}).filePath).bind fun f => f.blocks.getLast?) =
      some bid :=
      hbid
    simp only [write, NameNode.writeResponse, hop, hlast]
  next => exact ⟨_, rfl, .inl rfl⟩

end LeaderServer

end MiniStorage.Namenode
