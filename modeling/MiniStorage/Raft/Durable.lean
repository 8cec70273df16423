import MiniStorage.Raft.Persist
import MiniStorage.Raft.Spec

namespace MiniStorage.Raft

open RaftNode

/-- How one PersistState goes: whether the file opens, and how many bytes the device takes then. -/
structure Attempt where
  opened : Bool := true
  room : Option Nat := none
deriving DecidableEq, Repr

def Attempt.written (a : Attempt) (s : StateFile) : Engine.OFStream := s.writeTo { room := a.room }

/-- The file is emptied once it is open. -/
def Attempt.save (a : Attempt) (s : StateFile) (file : Option Bytes) : Option Bytes :=
  if a.opened then some (a.written s).bytes else file

def RaftNode.saved (n : RaftNode) : StateFile := ⟨n.currentTerm, n.votedFor, n.log.tail⟩

/-- RestoreState on a fresh node, which stays as it is where there is no file. -/
def restored : Option Bytes → RaftNode
  | none => {}
  | some bytes => RaftNode.readState {} bytes

/-- A node over what is really in its raft_state.dat, and the number of its PersistState calls. -/
structure DiskNode where
  node : RaftNode
  file : Option Bytes := none
  count : Nat := 0

namespace DiskNode

variable (plan : Nat → Attempt)

def persistState (b : DiskNode) : Bool × DiskNode :=
  let a := plan b.count
  (a.opened && (a.written b.node.saved).good,
    { node := b.node.persistState, file := a.save b.node.saved b.file, count := b.count + 1 })

/-! The handlers again. None of them looks at what PersistState returns. -/

def adoptTerm (b : DiskNode) (term : Nat) : DiskNode :=
  (persistState plan { b with
    node := { b.node with currentTerm := term, state := .follower, votedFor := [], leaderId := [] } }).2

def catchUp (b : DiskNode) (term : Nat) : DiskNode :=
  if b.node.currentTerm < term then b.adoptTerm plan term else b

def becomeCandidate (cfg : RaftConfig) (b : DiskNode) : DiskNode :=
  (persistState plan { b with
    node := { b.node with
      state := .candidate
      currentTerm := b.node.currentTerm + 1
      votedFor := cfg.nodeId
      leaderId := []
      votesReceived := 1 } }).2

def handleRequestVote (b : DiskNode) (req : RequestVoteRequest) : DiskNode × RequestVoteResponse :=
  if req.term < b.node.currentTerm then (b, ⟨b.node.currentTerm, false⟩)
  else
    let b := b.catchUp plan req.term
    if b.node.canVote req then
      ((persistState plan { b with node := { b.node with votedFor := req.candidateId } }).2, ⟨b.node.currentTerm, true⟩)
    else (b, ⟨b.node.currentTerm, false⟩)

def follow (b : DiskNode) (leader : Bytes) (term : Nat) : DiskNode :=
  let b := b.catchUp plan term
  { b with node := { b.node with leaderId := leader, state := .follower } }

def acceptEntries (b : DiskNode) (req : AppendEntriesRequest) : DiskNode :=
  let b := (persistState plan { b with node := { b.node with log := appendNew b.node.log req.entries } }).2
  let n := b.node.followCommit req.leaderCommit
  { b with node := { n with aeResp := ⟨n.currentTerm, true, (back n.log).index⟩ } }

def checkEntries (b : DiskNode) (req : AppendEntriesRequest) : Option DiskNode :=
  let n := b.node
  if (back n.log).index < req.prevLogIndex then some { b with node := n.reject (back n.log).index }
  else if n.snapshotLastIndex ≤ req.prevLogIndex then
    if (n.getLogEntry req.prevLogIndex).any (·.term ≠ req.prevLogTerm) then
      (n.truncateConflict req).map fun log =>
        (persistState plan { b with node := { n with log := log }.reject (back log).index }).2
    else some (b.acceptEntries plan req)
  else if req.prevLogIndex ≠ n.snapshotLastIndex ∨ req.prevLogTerm ≠ n.snapshotLastTerm then
    some { b with node := n.reject n.snapshotLastIndex }
  else some (b.acceptEntries plan req)

def handleAppendEntries (b : DiskNode) (leader : Bytes) (req : AppendEntriesRequest) : Option DiskNode :=
  if req.term < b.node.currentTerm then
    some { b with node := { b.node with aeResp := { b.node.aeResp with term := b.node.currentTerm, success := false } } }
  else (b.follow plan leader req.term).checkEntries plan req

end DiskNode

/-- What a node sends that relies on its state being on disk: a vote, the acknowledgement of entries, or a
RequestVote of its own. -/
inductive Relying
  | requestVote (req : RequestVoteRequest)
  | appendEntries (leader : Bytes) (req : AppendEntriesRequest)
  | becomeCandidate (cfg : RaftConfig)

/-- The node afterwards, and whether it sends that. -/
def DiskNode.perform (plan : Nat → Attempt) (b : DiskNode) : Relying → Option (DiskNode × Bool)
  | .requestVote req => some ((b.handleRequestVote plan req).1, (b.handleRequestVote plan req).2.voteGranted)
  | .appendEntries leader req => (b.handleAppendEntries plan leader req).map fun b => (b, b.node.aeResp.success)
  | .becomeCandidate cfg => some (b.becomeCandidate plan cfg, true)

/-- The state that a new term leaves. -/
def adopted (n : RaftNode) (term : Nat) : List StateFile :=
  if n.currentTerm < term then [⟨term, [], n.log.tail⟩] else []

namespace Relying

/-- The state that is relied on. -/
def relied (n : RaftNode) : Relying → StateFile
  | requestVote req => ⟨req.term, req.candidateId, n.log.tail⟩
  | appendEntries _ req =>
      ⟨req.term, if n.currentTerm < req.term then [] else n.votedFor, (appendNew n.log req.entries).tail⟩
  | becomeCandidate cfg => ⟨n.currentTerm + 1, cfg.nodeId, n.log.tail⟩

/-- The state that is written before that one. -/
def before (n : RaftNode) : Relying → List StateFile
  | requestVote req => adopted n req.term
  | appendEntries _ req => adopted n req.term
  | becomeCandidate _ => []

/-- The PersistState calls on the way, the last one first. -/
def calls (plan : Nat → Attempt) (b : DiskNode) (act : Relying) : List (StateFile × Attempt) :=
  (act.relied b.node, plan (b.count + (act.before b.node).length)) :: (act.before b.node).map fun s => (s, plan b.count)

end Relying

/-- Of the calls, the one that opened the file last has left this state there, up to zeros at the end. If none did, the
file that was there has it. -/
def Lasts (t : StateFile) (file : Option Bytes) : List (StateFile × Attempt) → Prop
  | [] => (restored file).Recovered t
  | (s, a) :: calls => if a.opened then Padded t.bytes (usable (a.written s).bytes) else Lasts t file calls

theorem Attempt.isPrefix_written (a : Attempt) (s : StateFile) : (a.written s).bytes <+: s.bytes := by
  rw [written]
  cases a.room with
  | none => exact List.prefix_rfl
  | some room =>
      change CrashPoint.file s s (.written room) <+: s.bytes
      rw [CrashPoint.file_written]
      exact List.take_prefix _ _

theorem restored_saves_iff {t : StateFile} (ht : t.Fits) (file : Option Bytes) {calls : List (StateFile × Attempt)}
    (h : ∀ c ∈ calls, c.1.Fits) :
    (restored (calls.foldr (fun c file => c.2.save c.1 file) file)).Recovered t ↔ Lasts t file calls := by
  induction calls with
  | nil => exact Iff.rfl
  | cons c calls ih =>
      obtain ⟨hc, hcalls⟩ := List.forall_mem_cons.mp h
      rw [List.foldr_cons, Attempt.save, Lasts]
      split
      · exact recovered_prefix_iff hc ht (c.2.isPrefix_written c.1)
      · exact ih hcalls

namespace DiskNode

variable {plan : Nat → Attempt} {b b' : DiskNode}

theorem node_catchUp (b : DiskNode) (term : Nat) : (b.catchUp plan term).node = b.node.catchUp term := by
  rw [catchUp, RaftNode.catchUp]
  split <;> rfl

theorem catchUp_file (plan : Nat → Attempt) (b : DiskNode) (term : Nat) :
    (b.catchUp plan term).count = b.count + (adopted b.node term).length ∧ (b.catchUp plan term).file =
      ((adopted b.node term).map fun s => (s, plan b.count)).foldr (fun c file => c.2.save c.1 file) b.file := by
  rw [catchUp, adopted]
  split <;> exact ⟨rfl, rfl⟩

theorem node_handleRequestVote (b : DiskNode) (req : RequestVoteRequest) :
    (b.handleRequestVote plan req).1.node = (b.node.handleRequestVote req).1 ∧
      (b.handleRequestVote plan req).2 = (b.node.handleRequestVote req).2 := by
  rw [handleRequestVote, RaftNode.handleRequestVote]
  split
  · exact ⟨rfl, rfl⟩
  · dsimp only
    rw [node_catchUp]
    split
    · exact ⟨rfl, rfl⟩
    · exact ⟨node_catchUp b req.term, rfl⟩

theorem node_follow (b : DiskNode) (leader : Bytes) (term : Nat) :
    (b.follow plan leader term).node = b.node.follow leader term := by
  rw [follow, RaftNode.follow, node_catchUp]

theorem node_checkEntries (b : DiskNode) (req : AppendEntriesRequest) :
    (b.checkEntries plan req).map DiskNode.node = b.node.checkEntries req := by
  rw [checkEntries, RaftNode.checkEntries]
  split
  · rfl
  · split
    · split
      · rw [Option.map_map]
        rfl
      · rfl
    · split <;> rfl

theorem node_handleAppendEntries (b : DiskNode) (leader : Bytes) (req : AppendEntriesRequest) :
    (b.handleAppendEntries plan leader req).map DiskNode.node = b.node.handleAppendEntries leader req := by
  rw [handleAppendEntries, RaftNode.handleAppendEntries]
  split
  · rfl
  · rw [node_checkEntries, node_follow]

theorem vote_written (b : DiskNode) {req : RequestVoteRequest}
    (hgranted : (b.handleRequestVote plan req).2.voteGranted = true) :
    (b.handleRequestVote plan req).1.node.saved = (Relying.requestVote req).relied b.node ∧
      (b.handleRequestVote plan req).1.file =
        ((Relying.requestVote req).calls plan b).foldr (fun c file => c.2.save c.1 file) b.file := by
  rw [handleRequestVote] at hgranted ⊢
  split at hgranted
  · cases hgranted
  · next hterm =>
    dsimp only at hgranted ⊢
    split at hgranted
    · next hvote =>
      have hsaved : ({ (b.catchUp plan req.term).node with votedFor := req.candidateId } : RaftNode).saved =
          (Relying.requestVote req).relied b.node := by
        rw [node_catchUp, saved, Relying.relied]
        dsimp only
        rw [catchUp_currentTerm, catchUp_log, max_eq_right (Nat.not_lt.mp hterm)]
      obtain ⟨hcount, hfile⟩ := b.catchUp_file plan req.term
      rw [if_neg hterm, if_pos hvote, Relying.calls, List.foldr_cons]
      refine ⟨hsaved, ?_⟩
      change (plan (b.catchUp plan req.term).count).save
        ({ (b.catchUp plan req.term).node with votedFor := req.candidateId } : RaftNode).saved
          (b.catchUp plan req.term).file = _
      rw [hsaved, hcount, hfile]
      rfl
    · cases hgranted

theorem follow_file (plan : Nat → Attempt) (b : DiskNode) (leader : Bytes) (term : Nat) :
    (b.follow plan leader term).count = b.count + (adopted b.node term).length ∧ (b.follow plan leader term).file =
      ((adopted b.node term).map fun s => (s, plan b.count)).foldr (fun c file => c.2.save c.1 file) b.file :=
  b.catchUp_file plan term

theorem acceptEntries_saved (plan : Nat → Attempt) (b : DiskNode) (req : AppendEntriesRequest) :
    (b.acceptEntries plan req).node.saved =
      ⟨b.node.currentTerm, b.node.votedFor, (appendNew b.node.log req.entries).tail⟩ ∧
      (b.acceptEntries plan req).file = (plan b.count).save
        ⟨b.node.currentTerm, b.node.votedFor, (appendNew b.node.log req.entries).tail⟩ b.file := by
  refine ⟨?_, rfl⟩
  obtain ⟨i, j, u, he⟩ := followCommit_shape (b.node.storeEntries req.entries) req.leaderCommit
  change saved { (b.node.storeEntries req.entries).followCommit req.leaderCommit with aeResp := _ } = _
  rw [he]
  rfl

theorem checkEntries_accepts {req : AppendEntriesRequest} (h : b.checkEntries plan req = some b')
    (hsuccess : b'.node.aeResp.success = true) : b' = b.acceptEntries plan req := by
  rw [checkEntries] at h
  split at h
  · cases h
    cases hsuccess
  · split at h
    · split at h
      · obtain ⟨log, -, rfl⟩ := Option.map_eq_some_iff.mp h
        cases hsuccess
      · exact (Option.some.inj h).symm
    · split at h
      · cases h
        cases hsuccess
      · exact (Option.some.inj h).symm

theorem entries_written {leader : Bytes} {req : AppendEntriesRequest}
    (h : b.handleAppendEntries plan leader req = some b') (hsuccess : b'.node.aeResp.success = true) :
    b'.node.saved = (Relying.appendEntries leader req).relied b.node ∧
      b'.file = ((Relying.appendEntries leader req).calls plan b).foldr (fun c file => c.2.save c.1 file) b.file := by
  rw [handleAppendEntries] at h
  split at h
  · cases h
    cases hsuccess
  · next hterm =>
    obtain rfl := checkEntries_accepts h hsuccess
    obtain ⟨hsaved, hfile⟩ := (b.follow plan leader req.term).acceptEntries_saved plan req
    obtain ⟨hcount, hbefore⟩ := b.follow_file plan leader req.term
    have hrelied : (⟨(b.follow plan leader req.term).node.currentTerm, (b.follow plan leader req.term).node.votedFor,
        (appendNew (b.follow plan leader req.term).node.log req.entries).tail⟩ : StateFile) =
        (Relying.appendEntries leader req).relied b.node := by
      rw [node_follow, RaftNode.follow, Relying.relied]
      dsimp only
      rw [catchUp_currentTerm, catchUp_log, max_eq_right (Nat.not_lt.mp hterm), RaftNode.catchUp]
      split <;> rfl
    rw [hrelied] at hsaved hfile
    rw [hcount, hbefore] at hfile
    exact ⟨hsaved, hfile⟩

/-- What is sent positively rests on the last of the calls. -/
theorem perform_written {act : Relying} (h : b.perform plan act = some (b', true)) :
    b'.node.saved = act.relied b.node ∧
      b'.file = (act.calls plan b).foldr (fun c file => c.2.save c.1 file) b.file := by
  cases act with
  | requestVote req =>
      obtain ⟨rfl, hgranted⟩ := Prod.mk.inj (Option.some.inj h)
      exact vote_written b hgranted
  | appendEntries leader req =>
      obtain ⟨b₁, h₁, he⟩ := Option.map_eq_some_iff.mp h
      obtain ⟨rfl, hsuccess⟩ := Prod.mk.inj he
      exact entries_written h₁ hsuccess
  | becomeCandidate cfg =>
      obtain ⟨rfl, -⟩ := Prod.mk.inj (Option.some.inj h)
      exact ⟨rfl, rfl⟩

end DiskNode

/-- A vote, an acknowledgement or a candidacy rests on a file with the same term, vote and entries exactly if the state
has lasted in the last file that could be opened. -/
theorem durable_before_reply_iff {plan : Nat → Attempt} {b b' : DiskNode} {act : Relying}
    (h : b.perform plan act = some (b', true)) (hfits : ∀ c ∈ act.calls plan b, c.1.Fits) :
    (restored b'.file).Recovered b'.node.saved ↔ Lasts (act.relied b.node) b.file (act.calls plan b) := by
  obtain ⟨hsaved, hfile⟩ := DiskNode.perform_written h
  rw [hsaved, hfile]
  exact restored_saves_iff (hfits _ List.mem_cons_self) b.file hfits

theorem durable_before_reply_vote :
    ∃ b', DiskNode.perform (fun _ => {}) ⟨{}, none, 0⟩ (.requestVote ⟨1, [98], 0, 0⟩) = some (b', true) ∧
    (restored b'.file).Recovered ⟨1, [98], []⟩ := by
  have hfits : ∀ c ∈ (Relying.requestVote ⟨1, [98], 0, 0⟩).calls (fun _ => {}) ⟨{}, none, 0⟩, c.1.Fits := by
    refine List.forall_mem_cons.mpr ⟨⟨by decide, by decide, by decide, by simp [Relying.relied]⟩, ?_⟩
    exact List.forall_mem_singleton.mpr ⟨by decide, by decide, by decide, by simp⟩
  exact ⟨_, rfl, (durable_before_reply_iff rfl hfits).mpr ⟨0, by decide⟩⟩

/-- No PersistState call can open the file, and the vote is granted all the same. -/
theorem vote_not_on_disk : ∃ (plan : Nat → Attempt) (b b' : DiskNode) (act : Relying),
    b.perform plan act = some (b', true) ∧ (∀ c ∈ act.calls plan b, c.1.Fits) ∧
      ¬ (restored b'.file).Recovered b'.node.saved := by
  refine ⟨fun _ => { opened := false }, ⟨{}, none, 0⟩, _, .requestVote ⟨1, [98], 0, 0⟩, rfl, ?_, by decide⟩
  refine List.forall_mem_cons.mpr ⟨⟨by decide, by decide, by decide, by simp [Relying.relied]⟩, ?_⟩
  exact List.forall_mem_singleton.mpr ⟨by decide, by decide, by decide, by simp⟩

end MiniStorage.Raft
