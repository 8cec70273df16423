import MiniStorage.Raft.Spec

namespace MiniStorage.Raft

variable {cfg : RaftConfig} {n n' : RaftNode}

namespace RaftNode

/-- The sentinel is at the front of the log, and the state file, unless the node
is still as it was constructed, holds the term, the vote and the log. -/
structure Intact (n : RaftNode) : Prop where
  sentinel : n.log = {} :: n.log.tail
  file : n.stateFile = some ⟨n.currentTerm, n.votedFor, n.log.tail⟩ ∨
    n.stateFile = none ∧ n.currentTerm = 0 ∧ n.votedFor = [] ∧ n.log = [{}]

theorem Intact.persistState (h : n.log = {} :: n.log.tail) : n.persistState.Intact := ⟨h, .inl rfl⟩

theorem Intact.congr (h : n.Intact) (hterm : n'.currentTerm = n.currentTerm)
    (hvote : n'.votedFor = n.votedFor) (hlog : n'.log = n.log) (hfile : n'.stateFile = n.stateFile) :
    n'.Intact := by
  refine ⟨?_, ?_⟩
  · rw [hlog]; exact h.sentinel
  · rw [hterm, hvote, hlog, hfile]; exact h.file

theorem Intact.catchUp (h : n.Intact) (t : Nat) : (n.catchUp t).Intact := by
  rcases Nat.lt_or_ge n.currentTerm t with ht | ht
  · rw [catchUp_of_lt ht]; exact .persistState h.sentinel
  · rw [catchUp_of_le ht]; exact h

theorem Intact.follow (h : n.Intact) (leader : Bytes) (t : Nat) : (n.follow leader t).Intact :=
  (h.catchUp t).congr rfl rfl rfl rfl

theorem Intact.advanceCommitIndex (h : n.Intact) : (n.advanceCommitIndex cfg).Intact := by
  obtain ⟨i, j, u, he⟩ := advanceCommitIndex_shape cfg n
  rw [he]
  exact h.congr rfl rfl rfl rfl

theorem appendNew_sentinel {log : List LogEntry} (h : log = {} :: log.tail) (entries : List LogEntry) :
    appendNew log entries = {} :: (appendNew log entries).tail := by
  rw [appendNew]
  induction entries generalizing log with
  | nil => exact h
  | cons e es ih =>
      rw [List.foldl_cons]
      apply ih
      split
      · rw [h]; rfl
      · exact h

theorem popFrom_isPrefix {log rest : List LogEntry} {i : Nat} (h : popFrom log i = some rest) :
    rest <+: log ∧ rest ≠ [] := by
  rw [popFrom] at h
  split at h
  · cases h
  · next hne =>
    cases h
    exact ⟨List.rdropWhile_prefix _ _, hne⟩

theorem sentinel_of_isPrefix {log rest : List LogEntry} (h : log = {} :: log.tail) (hp : rest <+: log)
    (hne : rest ≠ []) : rest = {} :: rest.tail := by
  obtain ⟨e, es, rfl⟩ := List.exists_cons_of_ne_nil hne
  rw [h] at hp
  obtain ⟨rfl, -⟩ := List.cons_prefix_cons.mp hp
  rfl

theorem Intact.handleAppendEntries (h : n.Intact) {leader : Bytes} {req : AppendEntriesRequest}
    (hn : n.handleAppendEntries leader req = some n') : n'.Intact := by
  cases handleAppendEntries_cases hn with
  | stale => exact h.congr rfl rfl rfl rfl
  | reject => exact (h.follow leader req.term).congr rfl rfl rfl rfl
  | truncate hge hsnap hback e he hne log hlog =>
      obtain ⟨hp, hnil⟩ := popFrom_isPrefix hlog
      exact .persistState (sentinel_of_isPrefix h.sentinel hp hnil)
  | accept =>
      obtain ⟨i, j, u, he⟩ := followCommit_shape ((n.follow leader req.term).storeEntries req.entries)
        req.leaderCommit
      have hs : ((n.follow leader req.term).storeEntries req.entries).Intact :=
        .persistState (appendNew_sentinel (h.follow leader req.term).sentinel _)
      rw [acceptEntries, he]
      exact hs.congr rfl rfl rfl rfl

theorem Intact.handleRequestVote (h : n.Intact) (req : RequestVoteRequest) :
    (n.handleRequestVote req).1.Intact := by
  have ho := handleRequestVote_cases n req
  generalize n.handleRequestVote req = r at ho ⊢
  cases ho with
  | stale => exact h
  | refuse => exact h.catchUp _
  | grant => exact .persistState (h.catchUp _).sentinel

theorem Intact.handleRequestVoteResponse (h : n.Intact) (resp : RequestVoteResponse) :
    (n.handleRequestVoteResponse cfg resp).Intact := by
  have ho := handleRequestVoteResponse_cases cfg n resp
  generalize n.handleRequestVoteResponse cfg resp = m at ho ⊢
  cases ho with
  | adopt => exact .persistState h.sentinel
  | ignore => exact h
  | count | win => exact h.congr rfl rfl rfl rfl

theorem Intact.handleAppendEntriesResponse (h : n.Intact) (peer : Bytes) (resp : AppendEntriesResponse) :
    (n.handleAppendEntriesResponse cfg peer resp).Intact := by
  have ho := handleAppendEntriesResponse_cases cfg n peer resp
  generalize n.handleAppendEntriesResponse cfg peer resp = m at ho ⊢
  cases ho with
  | adopt => exact .persistState h.sentinel
  | ignore => exact h
  | matched =>
      apply Intact.advanceCommitIndex
      exact h.congr rfl rfl rfl rfl
  | retry => exact h.congr rfl rfl rfl rfl

theorem trimLog_sentinel {log : List LogEntry} (h : log = {} :: log.tail) (i : Nat) :
    trimLog log i = {} :: (trimLog log i).tail := by
  rw [h]
  rfl

theorem Intact.handleInstallSnapshot (h : n.Intact) (req : InstallSnapshotRequest) :
    (n.handleInstallSnapshot req.leaderId req).1.Intact := by
  have ho := handleInstallSnapshot_cases n req.leaderId req
  generalize n.handleInstallSnapshot req.leaderId req = r at ho ⊢
  cases ho with
  | stale => exact h
  | skip => exact h.follow req.leaderId req.term
  | install => exact .persistState (trimLog_sentinel h.sentinel req.lastIncludedIndex)

theorem becomeFollower_self (n : RaftNode) :
    n.becomeFollower n.currentTerm = { n with state := .follower, leaderId := [] } := by
  rw [becomeFollower, if_neg (Nat.lt_irrefl _)]

theorem restoreFromSnapshot_field {α : Sort*} (f : RaftNode → α)
    (hf : ∀ (m : RaftNode) u t i c a, f { m with
      upper := u, snapshotLastTerm := t, snapshotLastIndex := i, commitIndex := c, lastApplied := a } = f m)
    (n : RaftNode) : f n.restoreFromSnapshot = f n := by
  rw [restoreFromSnapshot]
  split
  · rfl
  · dsimp only
    split <;> exact hf n _ _ _ _ _

theorem restart_field {α : Sort*} (f : RaftNode → α)
    (hf : ∀ (m : RaftNode) u t i c a, f { m with
      upper := u, snapshotLastTerm := t, snapshotLastIndex := i, commitIndex := c, lastApplied := a } = f m)
    (hs : ∀ m : RaftNode, f { m with state := .follower, leaderId := [] } = f m) (n : RaftNode) :
    f (Process.restart n).node =
      f { stateFile := n.stateFile, snapshotFile := n.snapshotFile : RaftNode }.restoreState := by
  rw [Process.restart, RaftNode.start, becomeFollower_self, hs, restoreFromSnapshot_field f hf]

@[simp] theorem restart_state (n : RaftNode) : (Process.restart n).node.state = .follower := by
  rw [Process.restart, RaftNode.start, becomeFollower_self]

@[simp] theorem restart_sending (n : RaftNode) : (Process.restart n).node.sending = [] := by
  rw [restart_field sending (fun _ _ _ _ _ _ => rfl) fun _ => rfl, restoreState]
  split <;> rfl

/-- A restart finds the term, the vote and the log again. -/
theorem Intact.restart (h : n.Intact) :
    (Process.restart n).node.currentTerm = n.currentTerm ∧ (Process.restart n).node.votedFor = n.votedFor ∧
      (Process.restart n).node.log = n.log ∧ (Process.restart n).node.stateFile = n.stateFile := by
  rw [restart_field currentTerm (fun _ _ _ _ _ _ => rfl) fun _ => rfl,
    restart_field votedFor (fun _ _ _ _ _ _ => rfl) fun _ => rfl,
    restart_field log (fun _ _ _ _ _ _ => rfl) fun _ => rfl,
    restart_field stateFile (fun _ _ _ _ _ _ => rfl) fun _ => rfl, restoreState]
  rcases h.file with hf | ⟨hf, ht, hv, hl⟩
  · rw [hf]
    refine ⟨rfl, ?_, h.sentinel.symm, rfl⟩
    dsimp only
    split
    · next hv => exact hv.symm
    · rfl
  · rw [hf, ht, hv, hl]
    exact ⟨rfl, rfl, rfl, rfl⟩

theorem Intact.start : (RaftNode.start none none).Intact := ⟨rfl, .inr ⟨rfl, rfl, rfl, rfl⟩⟩

theorem Intact.restarted (h : n.Intact) : (Process.restart n).node.Intact := by
  obtain ⟨ht, hv, hl, hf⟩ := h.restart
  exact h.congr ht hv hl hf

end RaftNode

theorem ProcStep.intact {peers : List Bytes} {id : Bytes} {p p' : Process} {net net' : List Packet}
    {a : Action} (hs : ProcStep peers id p net a p' net') (h : p.node.Intact) : p'.node.Intact := by
  cases hs with
  | timer hid hfree =>
      rw [Process.timerStep]
      split
      · exact h
      · rw [RaftNode.sendHeartbeats]
        split
        · exact h.congr rfl rfl rfl rfl
        · exact h
      · exact .persistState h.sentinel
      · exact h
      · exact h
      · rw [RaftNode.becomeLeader_eq]
        exact h.congr rfl rfl rfl rfl
  | heartbeat peer rest hsend => exact h.congr rfl rfl rfl rfl
  | propose command =>
      refine ⟨?_, .inl rfl⟩
      show p.node.log ++ _ = {} :: (p.node.log ++ _).tail
      rw [h.sentinel]
      rfl
  | refuse | wait | capture | installSnapshotResponse | lose => exact h
  | advance => exact h.advanceCommitIndex
  | send =>
      rw [RaftNode.sendHeartbeats]
      split
      · exact h.congr rfl rfl rfl rfl
      · exact h
  | write => exact h.congr rfl rfl rfl rfl
  | trim => exact .persistState (RaftNode.trimLog_sentinel h.sentinel _)
  | requestVote src req => exact h.handleRequestVote req
  | requestVoteResponse src resp => exact h.handleRequestVoteResponse resp
  | appendEntries src req hmem hid hfree n hn => exact h.handleAppendEntries hn
  | appendEntriesResponse src resp => exact h.handleAppendEntriesResponse src resp
  | installSnapshot src req => exact h.handleInstallSnapshot req
  | restart => exact h.restarted
  | crashHandling packet => exact RaftNode.Intact.restarted (.persistState h.sentinel)

namespace RaftNode

/-- A leader has a next index for every other node, and so has a running SendHeartbeats for the rest of its round. -/
structure Stocked (cfg : RaftConfig) (n : RaftNode) : Prop where
  leader : n.state = .leader → ∀ q ∈ cfg.others, ∃ j, n.nextIndex q = some (j + 1)
  sending : ∀ q ∈ n.sending, ∃ j, n.nextIndex q = some (j + 1)

theorem Stocked.congr (h : n.Stocked cfg) (hstate : n'.state = .leader → n.state = .leader)
    (hsend : ∀ q ∈ n'.sending, q ∈ n.sending)
    (hnext : ∀ q j, n.nextIndex q = some (j + 1) → ∃ j', n'.nextIndex q = some (j' + 1)) : n'.Stocked cfg :=
  ⟨fun hl q hq => (h.leader (hstate hl) q hq).elim (hnext q),
    fun q hq => (h.sending q (hsend q hq)).elim (hnext q)⟩

theorem Stocked.same (h : n.Stocked cfg) (hstate : n'.state = .leader → n.state = .leader)
    (hsend : ∀ q ∈ n'.sending, q ∈ n.sending) (hnext : n'.nextIndex = n.nextIndex) : n'.Stocked cfg :=
  h.congr hstate hsend fun q j hj => ⟨j, by rw [hnext, hj]⟩

theorem Stocked.update (h : n.Stocked cfg) (peer : Bytes) (k : Nat) :
    ({ n with nextIndex := Function.update n.nextIndex peer (some (k + 1)) } : RaftNode).Stocked cfg := by
  refine h.congr (fun hl => hl) (fun q hq => hq) fun q j hj => ?_
  by_cases hq : q = peer
  · subst q; exact ⟨k, by simp⟩
  · exact ⟨j, by simpa [hq] using hj⟩

theorem Stocked.sendHeartbeats (h : n.Stocked cfg) : (n.sendHeartbeats cfg).Stocked cfg := by
  rw [RaftNode.sendHeartbeats]
  split
  · next hl => exact ⟨fun _ => h.leader hl, fun q hq => h.leader hl q hq⟩
  · exact h

theorem Stocked.becomeLeader (cfg : RaftConfig) (n : RaftNode) : (n.becomeLeader cfg).Stocked cfg := by
  rw [becomeLeader_eq]
  exact ⟨fun _ q hq => ⟨_, if_pos hq⟩, fun q hq => ⟨_, if_pos hq⟩⟩

theorem Stocked.advanceCommitIndex (h : n.Stocked cfg) (cfg' : RaftConfig) :
    (n.advanceCommitIndex cfg').Stocked cfg := by
  obtain ⟨i, j, u, he⟩ := advanceCommitIndex_shape cfg' n
  rw [he]
  exact h.same (fun hl => hl) (fun _ hq => hq) rfl

theorem Stocked.catchUp (h : n.Stocked cfg) (t : Nat) : (n.catchUp t).Stocked cfg := by
  rcases Nat.lt_or_ge n.currentTerm t with ht | ht
  · rw [catchUp_of_lt ht]; exact h.same (fun hl => by cases hl) (fun _ hq => hq) rfl
  · rw [catchUp_of_le ht]; exact h

theorem Stocked.follow (h : n.Stocked cfg) (leader : Bytes) (t : Nat) : (n.follow leader t).Stocked cfg :=
  (h.catchUp t).same (fun hl => by cases hl) (fun _ hq => hq) rfl

theorem Stocked.handleAppendEntries (h : n.Stocked cfg) {leader : Bytes} {req : AppendEntriesRequest}
    (hn : n.handleAppendEntries leader req = some n') : n'.Stocked cfg := by
  cases handleAppendEntries_cases hn with
  | stale => exact h.same (fun hl => hl) (fun _ hq => hq) rfl
  | reject | truncate => exact (h.follow leader req.term).same (fun hl => hl) (fun _ hq => hq) rfl
  | accept =>
      obtain ⟨i, j, u, he⟩ := followCommit_shape ((n.follow leader req.term).storeEntries req.entries)
        req.leaderCommit
      rw [acceptEntries, he]
      exact (h.follow leader req.term).same (fun hl => hl) (fun _ hq => hq) rfl

theorem Stocked.handleRequestVote (h : n.Stocked cfg) (req : RequestVoteRequest) :
    (n.handleRequestVote req).1.Stocked cfg := by
  have ho := handleRequestVote_cases n req
  generalize n.handleRequestVote req = r at ho ⊢
  cases ho with
  | stale => exact h
  | refuse => exact h.catchUp _
  | grant => exact (h.catchUp req.term).same (fun hl => hl) (fun _ hq => hq) rfl

theorem Stocked.handleRequestVoteResponse (h : n.Stocked cfg) (resp : RequestVoteResponse) :
    (n.handleRequestVoteResponse cfg resp).Stocked cfg := by
  have ho := handleRequestVoteResponse_cases cfg n resp
  generalize n.handleRequestVoteResponse cfg resp = m at ho ⊢
  cases ho with
  | adopt => exact h.same (fun hl => by cases hl) (fun _ hq => hq) rfl
  | ignore => exact h
  | count => exact h.same (fun hl => hl) (fun _ hq => hq) rfl
  | win => exact .becomeLeader cfg _

theorem Stocked.handleAppendEntriesResponse (h : n.Stocked cfg) (peer : Bytes) (resp : AppendEntriesResponse) :
    (n.handleAppendEntriesResponse cfg peer resp).Stocked cfg := by
  have ho := handleAppendEntriesResponse_cases cfg n peer resp
  generalize n.handleAppendEntriesResponse cfg peer resp = m at ho ⊢
  cases ho with
  | adopt => exact h.same (fun hl => by cases hl) (fun _ hq => hq) rfl
  | ignore => exact h
  | matched =>
      apply Stocked.advanceCommitIndex
      exact (h.update peer resp.matchIndex).same (fun hl => hl) (fun _ hq => hq) rfl
  | retry =>
      have := h.update peer (max (resp.matchIndex) (n.snapshotLastIndex))
      rwa [show max resp.matchIndex n.snapshotLastIndex + 1 =
        max (max (resp.matchIndex + 1) (n.snapshotLastIndex + 1)) 1 by omega] at this

theorem Stocked.handleInstallSnapshot (h : n.Stocked cfg) (req : InstallSnapshotRequest) :
    (n.handleInstallSnapshot req.leaderId req).1.Stocked cfg := by
  have hf := h.follow req.leaderId req.term
  have ho := handleInstallSnapshot_cases n req.leaderId req
  generalize n.handleInstallSnapshot req.leaderId req = r at ho ⊢
  cases ho with
  | stale => exact h
  | skip => exact hf
  | install => exact hf.same (fun hl => hl) (fun _ hq => hq) rfl

theorem Stocked.restart (n : RaftNode) : (Process.restart n).node.Stocked cfg :=
  ⟨fun hl => (by rw [restart_state] at hl; cases hl), fun q hq => (by rw [restart_sending] at hq; cases hq)⟩

end RaftNode

theorem ProcStep.stocked {peers : List Bytes} {id : Bytes} {p p' : Process} {net net' : List Packet}
    {a : Action} (hs : ProcStep peers id p net a p' net') (h : p.node.Stocked ⟨id, peers⟩) :
    p'.node.Stocked ⟨id, peers⟩ := by
  cases hs with
  | timer =>
      rw [Process.timerStep]
      split
      · exact h
      · exact h.sendHeartbeats
      · exact h.same (fun hl => by cases hl) (fun _ hq => hq) rfl
      · exact h
      · exact h
      · exact .becomeLeader _ _
  | heartbeat peer rest hsend =>
      exact h.same (fun hl => hl) (fun q hq => hsend ▸ List.mem_cons_of_mem _ hq) rfl
  | propose command =>
      exact (h.update id _).same (fun hl => hl) (fun _ hq => hq) rfl
  | refuse | wait | capture | installSnapshotResponse | lose => exact h
  | advance => exact h.advanceCommitIndex _
  | send => exact h.sendHeartbeats
  | write | trim => exact h.same (fun hl => hl) (fun _ hq => hq) rfl
  | requestVote src req => exact h.handleRequestVote req
  | requestVoteResponse src resp => exact h.handleRequestVoteResponse resp
  | appendEntries src req hmem hid hfree n hn => exact h.handleAppendEntries hn
  | appendEntriesResponse src resp => exact h.handleAppendEntriesResponse src resp
  | installSnapshot src req => exact h.handleInstallSnapshot req
  | restart | crashHandling => exact .restart _

end MiniStorage.Raft
