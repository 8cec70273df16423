import MiniStorage.Raft.Cluster

namespace MiniStorage.Raft

variable {cfg : RaftConfig} {n n' : RaftNode}

namespace RaftNode

theorem applyNext_iterate (n : RaftNode) (k : Nat) :
    applyNext^[k] n = { n with
      lastApplied := n.lastApplied + k
      upper := n.upper ++ (List.range' (n.lastApplied + 1) k).map fun i => .applied i (n.getLogEntry i) } := by
  induction k generalizing n with
  | zero => simp
  | succ k ih =>
      rw [Function.iterate_succ_apply, ih]
      simp [applyNext, getLogEntry, List.range'_succ, Nat.add_assoc, Nat.add_comm 1 k]

/-- ApplyCommitted in closed form: the entries between the two positions, in order. -/
theorem applyCommitted_eq (n : RaftNode) (upTo : Nat) :
    n.applyCommitted upTo = { n with
      lastApplied := max n.lastApplied upTo
      upper := n.upper ++ (List.range' (n.lastApplied + 1) (upTo - n.lastApplied)).map
        fun i => .applied i (n.getLogEntry i) } := by
  rw [applyCommitted, applyNext_iterate, show n.lastApplied + (upTo - n.lastApplied) = max n.lastApplied upTo by omega]

theorem advanceFrom_cases (cfg : RaftConfig) (n : RaftNode) (k : Nat) :
    n.advanceFrom cfg k = n ∨ ∃ i, n.commitIndex < i ∧ i ≤ k ∧ n.commits cfg i = true ∧
      n.advanceFrom cfg k = { n with commitIndex := i }.applyCommitted i := by
  induction k with
  | zero => exact .inl rfl
  | succ k ih =>
      rw [advanceFrom]
      split
      · exact .inl rfl
      · split
        · next hc hk => exact .inr ⟨k + 1, by omega, le_rfl, hk, rfl⟩
        · exact ih.imp_right fun ⟨i, hi, hik, h⟩ => ⟨i, hi, by omega, h⟩

theorem advanceCommitIndex_shape (cfg : RaftConfig) (n : RaftNode) : ∃ i j u,
    n.advanceCommitIndex cfg = { n with commitIndex := i, lastApplied := j, upper := u } := by
  rcases advanceFrom_cases cfg n (back n.log).index with h | ⟨i, -, -, -, h⟩
  · exact ⟨_, _, _, h⟩
  · rw [applyCommitted_eq] at h
    exact ⟨_, _, _, h⟩

@[simp] theorem adoptTerm_log (t : Nat) : (n.adoptTerm t).log = n.log := rfl

theorem catchUp_of_lt {t : Nat} (h : n.currentTerm < t) : n.catchUp t = n.adoptTerm t := if_pos h

theorem catchUp_of_le {t : Nat} (h : t ≤ n.currentTerm) : n.catchUp t = n := if_neg (by omega)

@[simp] theorem advanceCommitIndex_state (cfg : RaftConfig) (n : RaftNode) :
    (n.advanceCommitIndex cfg).state = n.state := by
  obtain ⟨i, j, u, h⟩ := advanceCommitIndex_shape cfg n
  rw [h]

theorem becomeLeader_eq (cfg : RaftConfig) (n : RaftNode) : n.becomeLeader cfg = { n with
    state := .leader
    leaderId := cfg.nodeId
    nextIndex := fun p => if p ∈ cfg.others then some (max (back n.log).index n.snapshotLastIndex + 1) else none
    matchIndex := fun p => if p ∈ cfg.others then some 0 else none
    sending := cfg.others } := by
  rw [becomeLeader, sendHeartbeats, if_pos rfl]

theorem sendHeartbeats_shape (cfg : RaftConfig) (n : RaftNode) :
    ∃ l, n.sendHeartbeats cfg = { n with sending := l } := by
  rw [sendHeartbeats]
  split <;> exact ⟨_, rfl⟩

theorem catchUp_field {α : Sort*} (f : RaftNode → α) (hf : ∀ t, f (n.adoptTerm t) = f n) (t : Nat) :
    f (n.catchUp t) = f n := by
  unfold catchUp
  split
  · exact hf t
  · rfl

@[simp] theorem catchUp_log (t : Nat) : (n.catchUp t).log = n.log := catchUp_field _ (fun _ => rfl) t

@[simp] theorem catchUp_commitIndex (t : Nat) : (n.catchUp t).commitIndex = n.commitIndex :=
  catchUp_field _ (fun _ => rfl) t

@[simp] theorem catchUp_lastApplied (t : Nat) : (n.catchUp t).lastApplied = n.lastApplied :=
  catchUp_field _ (fun _ => rfl) t

@[simp] theorem catchUp_snapshotLastIndex (t : Nat) :
    (n.catchUp t).snapshotLastIndex = n.snapshotLastIndex := catchUp_field _ (fun _ => rfl) t

@[simp] theorem catchUp_snapshotLastTerm (t : Nat) :
    (n.catchUp t).snapshotLastTerm = n.snapshotLastTerm := catchUp_field _ (fun _ => rfl) t

@[simp] theorem catchUp_snapshotFile (t : Nat) : (n.catchUp t).snapshotFile = n.snapshotFile :=
  catchUp_field _ (fun _ => rfl) t

@[simp] theorem catchUp_sending (t : Nat) : (n.catchUp t).sending = n.sending :=
  catchUp_field _ (fun _ => rfl) t

@[simp] theorem catchUp_upper (t : Nat) : (n.catchUp t).upper = n.upper :=
  catchUp_field _ (fun _ => rfl) t

theorem follow_log (leader : Bytes) (t : Nat) : (n.follow leader t).log = n.log := catchUp_log t

theorem follow_snapshotLastIndex (leader : Bytes) (t : Nat) :
    (n.follow leader t).snapshotLastIndex = n.snapshotLastIndex := catchUp_snapshotLastIndex t

@[simp] theorem catchUp_getLogEntry (t i : Nat) : (n.catchUp t).getLogEntry i = n.getLogEntry i := by
  simp [getLogEntry]

theorem catchUp_currentTerm (t : Nat) : (n.catchUp t).currentTerm = max n.currentTerm t := by
  rcases Nat.lt_or_ge n.currentTerm t with h | h
  · rw [catchUp_of_lt h, max_eq_right h.le]; rfl
  · rw [catchUp_of_le h, max_eq_left h]

/-- What HandleAppendEntries can do to a node. -/
inductive AppendOutcome (n : RaftNode) (leader : Bytes) (req : AppendEntriesRequest) : RaftNode → Prop
  | stale (h : req.term < n.currentTerm) :
      AppendOutcome n leader req { n with aeResp := { n.aeResp with term := n.currentTerm, success := false } }
  | reject (h : n.currentTerm ≤ req.term) (m : Nat) :
      AppendOutcome n leader req ((n.follow leader req.term).reject m)
  | truncate (h : n.currentTerm ≤ req.term) (hsnap : n.snapshotLastIndex ≤ req.prevLogIndex)
      (hback : req.prevLogIndex ≤ (back n.log).index) (e : LogEntry)
      (he : n.getLogEntry req.prevLogIndex = some e) (hne : e.term ≠ req.prevLogTerm)
      (log : List LogEntry) (hlog : popFrom n.log req.prevLogIndex = some log) :
      AppendOutcome n leader req
        ({ n.follow leader req.term with log := log }.reject (back log).index).persistState
  | accept (h : n.currentTerm ≤ req.term) (hsnap : n.snapshotLastIndex ≤ req.prevLogIndex)
      (hback : req.prevLogIndex ≤ (back n.log).index)
      (hterm : ∀ e, n.getLogEntry req.prevLogIndex = some e → e.term = req.prevLogTerm) :
      AppendOutcome n leader req ((n.follow leader req.term).acceptEntries req)

theorem firstConflict_eq {req : AppendEntriesRequest} (hback : req.prevLogIndex ≤ (back n.log).index)
    (h : (n.getLogEntry req.prevLogIndex).any (·.term ≠ req.prevLogTerm) = true) :
    n.firstConflict req = some req.prevLogIndex := by
  rw [firstConflict, show (back n.log).index + 1 - req.prevLogIndex =
    (back n.log).index - req.prevLogIndex + 1 by omega, List.range'_succ]
  exact List.find?_cons_of_pos h

theorem handleAppendEntries_cases {leader : Bytes} {req : AppendEntriesRequest}
    (h : n.handleAppendEntries leader req = some n') : AppendOutcome n leader req n' := by
  rw [handleAppendEntries] at h
  split at h
  · next hlt => cases h; exact .stale hlt
  · next hge =>
    have hge : n.currentTerm ≤ req.term := by omega
    have hl : (n.follow leader req.term).log = n.log := catchUp_log _
    have hs : (n.follow leader req.term).snapshotLastIndex = n.snapshotLastIndex :=
      catchUp_snapshotLastIndex _
    have he i : (n.follow leader req.term).getLogEntry i = n.getLogEntry i := catchUp_getLogEntry _ _
    rw [checkEntries, hl, he] at h
    split at h
    · cases h; exact .reject hge _
    · next hback =>
      split at h
      · next hsnap =>
        rw [hs] at hsnap
        split at h
        · next hne =>
          rw [truncateConflict, firstConflict_eq (by rw [hl]; omega) (by rwa [he]), hl] at h
          obtain ⟨log, hlog, rfl⟩ := Option.map_eq_some_iff.mp h
          obtain ⟨e, hee, hne⟩ := (Option.any_eq_true _ _).mp hne
          exact .truncate hge hsnap (by omega) e hee (by simpa using hne) log hlog
        · next hne =>
          cases h
          refine .accept hge hsnap (by omega) fun e hee => ?_
          simpa [hee] using hne
      · next hsnap =>
        rw [hs] at hsnap
        rw [if_pos (.inl (by omega))] at h
        cases h
        exact .reject hge _

/-- The one way HandleAppendEntries goes wrong: a conflict whose truncation pops the sentinel. -/
theorem exists_handleAppendEntries {req : AppendEntriesRequest}
    (h : ∀ e, n.getLogEntry req.prevLogIndex = some e → n.snapshotLastIndex ≤ req.prevLogIndex →
      e.term ≠ req.prevLogTerm → ∃ log, popFrom n.log req.prevLogIndex = some log) (leader : Bytes) :
    ∃ n', n.handleAppendEntries leader req = some n' := by
  rw [handleAppendEntries]
  split
  · exact ⟨_, rfl⟩
  · have hl : (n.follow leader req.term).log = n.log := catchUp_log _
    have hs : (n.follow leader req.term).snapshotLastIndex = n.snapshotLastIndex := catchUp_snapshotLastIndex _
    have he i : (n.follow leader req.term).getLogEntry i = n.getLogEntry i := catchUp_getLogEntry _ _
    rw [checkEntries, hl, he, hs]
    split
    · exact ⟨_, rfl⟩
    · next hback =>
      split
      · next hsnap =>
        split
        · next hne =>
          obtain ⟨e, hee, hte⟩ := (Option.any_eq_true _ _).mp hne
          obtain ⟨log, hlog⟩ := h e hee hsnap (by simpa using hte)
          rw [truncateConflict, firstConflict_eq (by rw [hl]; omega) (by rwa [he]), hl]
          dsimp only
          rw [hlog]
          exact ⟨_, rfl⟩
        · exact ⟨_, rfl⟩
      · split <;> exact ⟨_, rfl⟩

theorem appendNew_grows (log entries : List LogEntry) : log <+: appendNew log entries := by
  rw [appendNew]
  induction entries generalizing log with
  | nil => exact List.prefix_refl _
  | cons e es ih =>
      rw [List.foldl_cons]
      refine List.IsPrefix.trans ?_ (ih _)
      split
      · exact List.prefix_append _ _
      · exact List.prefix_refl _

theorem mem_appendNew {log entries : List LogEntry} {e : LogEntry} (h : e ∈ appendNew log entries) :
    e ∈ log ∨ e ∈ entries := by
  rw [appendNew] at h
  induction entries generalizing log with
  | nil => exact .inl h
  | cons x xs ih =>
      rw [List.foldl_cons] at h
      rcases ih h with h | h
      · split at h
        · rw [List.mem_append, List.mem_singleton] at h
          rcases h with h | rfl
          · exact .inl h
          · exact .inr List.mem_cons_self
        · exact .inl h
      · exact .inr (List.mem_cons_of_mem x h)

theorem followCommit_cases (n : RaftNode) (leaderCommit : Nat) :
    min leaderCommit (back n.log).index ≤ n.commitIndex ∧ n.followCommit leaderCommit = n ∨
      n.commitIndex < min leaderCommit (back n.log).index ∧ n.followCommit leaderCommit =
        { n with commitIndex := min leaderCommit (back n.log).index }.applyCommitted
          (min leaderCommit (back n.log).index) := by
  rw [followCommit]
  split
  · next h => exact .inr ⟨h.2, rfl⟩
  · next h => exact .inl ⟨by omega, rfl⟩

theorem followCommit_shape (n : RaftNode) (leaderCommit : Nat) : ∃ i j u,
    n.followCommit leaderCommit = { n with commitIndex := i, lastApplied := j, upper := u } := by
  rcases followCommit_cases n leaderCommit with ⟨-, h⟩ | ⟨-, h⟩
  · exact ⟨_, _, _, h⟩
  · rw [applyCommitted_eq] at h
    exact ⟨_, _, _, h⟩

theorem acceptEntries_field {α : Sort*} (f : RaftNode → α)
    (hf : ∀ (m : RaftNode) i j u r, f { m with commitIndex := i, lastApplied := j, upper := u, aeResp := r } = f m)
    (n : RaftNode) (req : AppendEntriesRequest) : f (n.acceptEntries req) = f (n.storeEntries req.entries) := by
  obtain ⟨i, j, u, he⟩ := followCommit_shape (n.storeEntries req.entries) req.leaderCommit
  rw [acceptEntries, he]
  exact hf (n.storeEntries req.entries) i j u _

theorem acceptEntries_log (n : RaftNode) (req : AppendEntriesRequest) :
    (n.acceptEntries req).log = appendNew n.log req.entries :=
  acceptEntries_field log (fun _ _ _ _ _ => rfl) n req

theorem acceptEntries_snapshotLastIndex (n : RaftNode) (req : AppendEntriesRequest) :
    (n.acceptEntries req).snapshotLastIndex = n.snapshotLastIndex :=
  acceptEntries_field snapshotLastIndex (fun _ _ _ _ _ => rfl) n req

theorem acceptEntries_snapshotLastTerm (n : RaftNode) (req : AppendEntriesRequest) :
    (n.acceptEntries req).snapshotLastTerm = n.snapshotLastTerm :=
  acceptEntries_field snapshotLastTerm (fun _ _ _ _ _ => rfl) n req

theorem acceptEntries_snapshotFile (n : RaftNode) (req : AppendEntriesRequest) :
    (n.acceptEntries req).snapshotFile = n.snapshotFile :=
  acceptEntries_field snapshotFile (fun _ _ _ _ _ => rfl) n req

/-- What HandleRequestVote can do to a node, and what it answers. -/
inductive VoteOutcome (n : RaftNode) (req : RequestVoteRequest) : RaftNode × RequestVoteResponse → Prop
  | stale (h : req.term < n.currentTerm) : VoteOutcome n req (n, ⟨n.currentTerm, false⟩)
  | refuse (h : n.currentTerm ≤ req.term) : VoteOutcome n req (n.catchUp req.term, ⟨req.term, false⟩)
  | grant (h : n.currentTerm ≤ req.term)
      (hfree : (n.catchUp req.term).votedFor = [] ∨ (n.catchUp req.term).votedFor = req.candidateId)
      (hup : (back n.log).term < req.lastLogTerm ∨
        req.lastLogTerm = (back n.log).term ∧ (back n.log).index ≤ req.lastLogIndex) :
      VoteOutcome n req
        ({ n.catchUp req.term with votedFor := req.candidateId }.persistState, ⟨req.term, true⟩)

theorem handleRequestVote_cases (n : RaftNode) (req : RequestVoteRequest) :
    VoteOutcome n req (n.handleRequestVote req) := by
  rw [handleRequestVote]
  split
  · next h => exact .stale h
  · next h =>
    have h : n.currentTerm ≤ req.term := by omega
    have ht : (n.catchUp req.term).currentTerm = req.term := by
      rw [catchUp_currentTerm, max_eq_right h]
    have hresp b : (⟨(n.catchUp req.term).currentTerm, b⟩ : RequestVoteResponse) = ⟨req.term, b⟩ := by
      rw [ht]
    dsimp only
    rw [hresp, hresp]
    split
    · next hv =>
      rw [canVote, decide_eq_true_eq, catchUp_log] at hv
      exact .grant h hv.1 hv.2
    · exact .refuse h

/-- What HandleRequestVoteResponse can do to a node. -/
inductive CountOutcome (cfg : RaftConfig) (n : RaftNode) (resp : RequestVoteResponse) : RaftNode → Prop
  | adopt (h : n.currentTerm < resp.term) : CountOutcome cfg n resp (n.adoptTerm resp.term)
  | ignore : CountOutcome cfg n resp n
  | count (hterm : resp.term = n.currentTerm) (hstate : n.state = .candidate)
      (hgrant : resp.voteGranted = true) (hfew : n.votesReceived + 1 < cfg.majority) :
      CountOutcome cfg n resp { n with votesReceived := n.votesReceived + 1 }
  | win (hterm : resp.term = n.currentTerm) (hstate : n.state = .candidate)
      (hgrant : resp.voteGranted = true) (hmaj : cfg.majority ≤ n.votesReceived + 1) :
      CountOutcome cfg n resp ({ n with votesReceived := n.votesReceived + 1 }.becomeLeader cfg)

theorem handleRequestVoteResponse_cases (cfg : RaftConfig) (n : RaftNode) (resp : RequestVoteResponse) :
    CountOutcome cfg n resp (n.handleRequestVoteResponse cfg resp) := by
  rw [handleRequestVoteResponse]
  split
  · next h => exact .adopt h
  · next hle =>
    split
    · exact .ignore
    · next hstate =>
      split
      · exact .ignore
      · next hge =>
        split
        · next hgrant =>
          have hterm : resp.term = n.currentTerm := by omega
          have hstate : n.state = .candidate := by simpa using hstate
          dsimp only
          split
          · next hmaj => exact .win hterm hstate hgrant hmaj
          · next hmaj => exact .count hterm hstate hgrant (by omega)
        · exact .ignore

/-- What HandleAppendEntriesResponse can do to a node. -/
inductive MatchOutcome (cfg : RaftConfig) (n : RaftNode) (peer : Bytes) (resp : AppendEntriesResponse) :
    RaftNode → Prop
  | adopt (h : n.currentTerm < resp.term) : MatchOutcome cfg n peer resp (n.adoptTerm resp.term)
  | ignore : MatchOutcome cfg n peer resp n
  | matched (h : resp.term ≤ n.currentTerm) (hstate : n.state = .leader) (hok : resp.success = true) :
      MatchOutcome cfg n peer resp
        ({ n with
          matchIndex := Function.update n.matchIndex peer (some resp.matchIndex)
          nextIndex := Function.update n.nextIndex peer (some (resp.matchIndex + 1)) }.advanceCommitIndex cfg)
  | retry (h : resp.term ≤ n.currentTerm) (hstate : n.state = .leader)
      (hlt : resp.matchIndex < (n.nextIndex peer).getD 0) :
      MatchOutcome cfg n peer resp { n with
        nextIndex := Function.update n.nextIndex peer
          (some (max (max (resp.matchIndex + 1) (n.snapshotLastIndex + 1)) 1)) }

theorem handleAppendEntriesResponse_cases (cfg : RaftConfig) (n : RaftNode) (peer : Bytes)
    (resp : AppendEntriesResponse) :
    MatchOutcome cfg n peer resp (n.handleAppendEntriesResponse cfg peer resp) := by
  rw [handleAppendEntriesResponse]
  split
  · next h => exact .adopt h
  · next hle =>
    split
    · exact .ignore
    · next hstate =>
      have hstate : n.state = .leader := by simpa using hstate
      split
      · next hok => exact .matched (by omega) hstate hok
      · split
        · next hlt => exact .retry (by omega) hstate hlt
        · exact .ignore

/-- What HandleInstallSnapshot can do to a node, and what it answers. -/
inductive InstallOutcome (n : RaftNode) (leader : Bytes) (req : InstallSnapshotRequest) :
    RaftNode × InstallSnapshotResponse → Prop
  | stale (h : req.term < n.currentTerm) : InstallOutcome n leader req (n, ⟨n.currentTerm, false⟩)
  | skip (h : n.currentTerm ≤ req.term)
      (hold : req.lastIncludedIndex ≤ n.snapshotLastTerm ∨ req.lastIncludedIndex ≤ n.commitIndex) :
      InstallOutcome n leader req (n.follow leader req.term, ⟨req.term, true⟩)
  | install (h : n.currentTerm ≤ req.term) (hterm : n.snapshotLastTerm < req.lastIncludedIndex)
      (hcommit : n.commitIndex < req.lastIncludedIndex) :
      InstallOutcome n leader req ({ n.follow leader req.term with
        snapshotFile := some ⟨req.lastIncludedIndex, req.lastIncludedTerm, req.snapshotData⟩
        upper := if req.snapshotData = [] then n.upper else n.upper ++ [UpperEvent.restored req.snapshotData]
        snapshotLastIndex := req.lastIncludedIndex
        snapshotLastTerm := req.lastIncludedTerm
        log := trimLog n.log req.lastIncludedIndex
        commitIndex := req.lastIncludedIndex
        lastApplied := req.lastIncludedIndex }.persistState, ⟨req.term, true⟩)

theorem handleInstallSnapshot_cases (n : RaftNode) (leader : Bytes) (req : InstallSnapshotRequest) :
    InstallOutcome n leader req (n.handleInstallSnapshot leader req) := by
  have hcommit : (n.follow leader req.term).commitIndex = n.commitIndex := catchUp_commitIndex _
  have hsnap : (n.follow leader req.term).snapshotLastTerm = n.snapshotLastTerm := catchUp_snapshotLastTerm _
  have hlog : (n.follow leader req.term).log = n.log := catchUp_log _
  have hupper : (n.follow leader req.term).upper = n.upper := catchUp_upper _
  rw [handleInstallSnapshot]
  split
  · next hlt => exact .stale hlt
  · next hge =>
    have hge : n.currentTerm ≤ req.term := by omega
    have hterm : (n.follow leader req.term).currentTerm = req.term :=
      (catchUp_currentTerm _).trans (max_eq_right hge)
    dsimp only
    rw [hcommit, hsnap, hlog, hupper]
    split
    · next hold =>
      refine cast (congrArg (fun t => InstallOutcome n leader req (_, ⟨t, true⟩)) hterm.symm) ?_
      exact .skip hge hold
    · next hnew =>
      obtain ⟨hterm', hcommit'⟩ := not_or.mp hnew
      rw [if_pos (by omega)]
      refine cast (congrArg (fun t => InstallOutcome n leader req (_, ⟨t, true⟩)) hterm.symm) ?_
      exact .install hge (Nat.lt_of_not_le hterm') (Nat.lt_of_not_le hcommit')

theorem heartbeatRequest_eq (cfg : RaftConfig) {n : RaftNode} {peer : Bytes} {p : Nat}
    (hnext : n.nextIndex peer = some (p + 1)) : n.heartbeatRequest cfg peer =
      ⟨n.currentTerm, cfg.nodeId, p, n.prevLogTerm p, n.log.filter (p + 1 ≤ ·.index), n.commitIndex⟩ := by
  rw [heartbeatRequest, hnext]
  rfl

theorem prevLogTerm_of_getLogEntry {n : RaftNode} {i : Nat} {e : LogEntry} (hs : n.snapshotLastIndex < i)
    (he : n.getLogEntry i = some e) : n.prevLogTerm i = e.term := by
  rw [prevLogTerm, if_pos hs, he]
  rfl

theorem prevLogTerm_snapshot (n : RaftNode) : n.prevLogTerm n.snapshotLastIndex = n.snapshotLastTerm := by
  rw [prevLogTerm, if_neg (Nat.lt_irrefl _), if_pos rfl]

end RaftNode

/-- What a step can do to the one process it touches and to the messages in flight. -/
inductive ProcStep (peers : List Bytes) (id : Bytes) (p : Process) (net : List Packet) :
    Action → Process → List Packet → Prop
  | timer (hid : id ∈ peers) (hfree : p.node.sending = []) :
      ProcStep peers id p net (.timer id) (p.timerStep ⟨id, peers⟩).1 ((p.timerStep ⟨id, peers⟩).2 ++ net)
  | heartbeat (peer : Bytes) (rest : List Bytes) (hsend : p.node.sending = peer :: rest) :
      ProcStep peers id p net (.heartbeat id) { p with node := { p.node with sending := rest } }
        (⟨id, peer, .appendEntries (p.node.heartbeatRequest ⟨id, peers⟩ peer)⟩ :: net)
  | propose (command : Bytes) (hid : id ∈ peers) (hfree : p.node.sending = [])
      (hstate : p.node.state = .leader) :
      ProcStep peers id p net (.propose id command)
        { p with
          node := (p.node.propose ⟨id, peers⟩ command).1
          calls := p.calls ++ [⟨(p.node.propose ⟨id, peers⟩ command).2, .advance⟩] } net
  | refuse (command : Bytes) : ProcStep peers id p net (.propose id command) p net
  | advance (k : Nat) (expired : Bool) (hid : id ∈ peers) (hfree : p.node.sending = [])
      (call : ProposeCall) (hcall : p.calls[k]? = some call) (hpc : call.pc = .advance) :
      ProcStep peers id p net (.proposeNext id k expired)
        { p with
          node := p.node.advanceCommitIndex ⟨id, peers⟩
          calls := p.calls.set k { call with pc := .send } } net
  | send (k : Nat) (expired : Bool) (hid : id ∈ peers) (hfree : p.node.sending = [])
      (call : ProposeCall) (hcall : p.calls[k]? = some call) (hpc : call.pc = .send) :
      ProcStep peers id p net (.proposeNext id k expired)
        { p with
          node := p.node.sendHeartbeats ⟨id, peers⟩
          calls := p.calls.set k { call with pc := .wait } } net
  | wait (k : Nat) (expired : Bool) (call : ProposeCall) (hcall : p.calls[k]? = some call)
      (hpc : call.pc = .wait) :
      ProcStep peers id p net (.proposeNext id k expired)
        { p with calls := p.calls.set k { call with pc := Process.waitNext p.node call expired } } net
  | capture (data : Bytes) (hid : id ∈ peers) (snap : SnapshotMetadata) (hnone : p.snapshot = none)
      (hsnap : p.node.captureSnapshot data = some snap) :
      ProcStep peers id p net (.snapshot id data) { p with snapshot := some ⟨snap, false⟩ } net
  | write (data : Bytes) (snap : SnapshotMetadata) (hsnap : p.snapshot = some ⟨snap, false⟩) :
      ProcStep peers id p net (.snapshot id data)
        { p with
          node := { p.node with snapshotFile := some snap }
          snapshot := some ⟨snap, true⟩ } net
  | trim (data : Bytes) (hfree : p.node.sending = []) (snap : SnapshotMetadata)
      (hsnap : p.snapshot = some ⟨snap, true⟩) :
      ProcStep peers id p net (.snapshot id data)
        { p with node := p.node.trimSnapshot snap, snapshot := none } net
  | requestVote (src : Bytes) (req : RequestVoteRequest) (hmem : ⟨src, id, .requestVote req⟩ ∈ net)
      (hid : id ∈ peers) (hfree : p.node.sending = []) :
      ProcStep peers id p net (.deliver ⟨src, id, .requestVote req⟩)
        { p with node := (p.node.handleRequestVote req).1 }
        (⟨id, src, .requestVoteResponse (p.node.handleRequestVote req).2⟩ ::
          net.erase ⟨src, id, .requestVote req⟩)
  | requestVoteResponse (src : Bytes) (resp : RequestVoteResponse)
      (hmem : ⟨src, id, .requestVoteResponse resp⟩ ∈ net) (hid : id ∈ peers)
      (hfree : p.node.sending = []) :
      ProcStep peers id p net (.deliver ⟨src, id, .requestVoteResponse resp⟩)
        { p with node := p.node.handleRequestVoteResponse ⟨id, peers⟩ resp }
        (net.erase ⟨src, id, .requestVoteResponse resp⟩)
  | appendEntries (src : Bytes) (req : AppendEntriesRequest)
      (hmem : ⟨src, id, .appendEntries req⟩ ∈ net) (hid : id ∈ peers) (hfree : p.node.sending = [])
      (n : RaftNode) (hn : p.node.handleAppendEntries req.leaderId req = some n) :
      ProcStep peers id p net (.deliver ⟨src, id, .appendEntries req⟩) { p with node := n }
        (⟨id, src, .appendEntriesResponse n.aeResp⟩ :: net.erase ⟨src, id, .appendEntries req⟩)
  | appendEntriesResponse (src : Bytes) (resp : AppendEntriesResponse)
      (hmem : ⟨src, id, .appendEntriesResponse resp⟩ ∈ net) (hid : id ∈ peers) :
      ProcStep peers id p net (.deliver ⟨src, id, .appendEntriesResponse resp⟩)
        { p with node := p.node.handleAppendEntriesResponse ⟨id, peers⟩ src resp }
        (net.erase ⟨src, id, .appendEntriesResponse resp⟩)
  | installSnapshot (src : Bytes) (req : InstallSnapshotRequest)
      (hmem : ⟨src, id, .installSnapshot req⟩ ∈ net) :
      ProcStep peers id p net (.deliver ⟨src, id, .installSnapshot req⟩)
        { p with node := (p.node.handleInstallSnapshot req.leaderId req).1 }
        (⟨id, src, .installSnapshotResponse (p.node.handleInstallSnapshot req.leaderId req).2⟩ ::
          net.erase ⟨src, id, .installSnapshot req⟩)
  | installSnapshotResponse (src : Bytes) (resp : InstallSnapshotResponse)
      (hmem : ⟨src, id, .installSnapshotResponse resp⟩ ∈ net) :
      ProcStep peers id p net (.deliver ⟨src, id, .installSnapshotResponse resp⟩) p
        (net.erase ⟨src, id, .installSnapshotResponse resp⟩)
  | lose (packet : Packet) (hmem : packet ∈ net) :
      ProcStep peers id p net (.lose packet) p (net.erase packet)
  | restart (hid : id ∈ peers) : ProcStep peers id p net (.restart id) (Process.restart p.node) net
  | crashHandling (packet : Packet) (hmem : packet ∈ net) (hdst : packet.dst = id) (hid : id ∈ peers)
      (hterm : p.node.currentTerm < packet.msg.term) :
      ProcStep peers id p net (.crashHandling packet)
        (Process.restart (p.node.adoptTerm packet.msg.term)) (net.erase packet)

theorem put_self (c : Cluster) (id : Bytes) (net : List Packet) : c.put id (c.procs id) net = ⟨c.procs, net⟩ := by
  simp [Cluster.put]

@[simp] theorem put_procs (c : Cluster) (id : Bytes) (p : Process) (net : List Packet) :
    (c.put id p net).procs id = p := by
  simp [Cluster.put]

@[simp] theorem put_node (c : Cluster) (id : Bytes) (p : Process) (net : List Packet) :
    (c.put id p net).node id = p.node := by
  simp [Cluster.node]

theorem put_procs_of_ne (c : Cluster) {id w : Bytes} (p : Process) (net : List Packet) (hw : w ≠ id) :
    (c.put id p net).procs w = c.procs w := by
  simp [Cluster.put, hw]

theorem put_cases {P : Bytes → Process → Prop} (c : Cluster) {id : Bytes} {p : Process} (net : List Packet)
    (hp : P id p) (h : ∀ w, w ≠ id → P w (c.procs w)) (w : Bytes) : P w ((c.put id p net).procs w) := by
  by_cases hw : w = id
  · subst w
    rw [put_procs]
    exact hp
  · rw [put_procs_of_ne c p net hw]
    exact h w hw

theorem step_cases {peers : List Bytes} {c c' : Cluster} {a : Action} (h : step peers c a = some c') :
    ∃ id p net, c' = c.put id p net ∧ ProcStep peers id (c.procs id) c.net a p net := by
  cases a with
  | timer id =>
      simp only [step, Option.ite_none_right_eq_some, Option.some.injEq] at h
      obtain ⟨⟨hid, hfree⟩, rfl⟩ := h
      exact ⟨_, _, _, rfl, .timer hid hfree⟩
  | heartbeat id =>
      simp only [step] at h
      split at h
      · cases h
      · next peer rest hsend => cases h; exact ⟨_, _, _, rfl, .heartbeat peer rest hsend⟩
  | propose id command =>
      simp only [step, Option.ite_none_right_eq_some, Option.some.injEq] at h
      obtain ⟨⟨hid, hfree⟩, rfl⟩ := h
      refine ⟨_, _, _, rfl, ?_⟩
      rw [Process.proposeStep]
      split
      · next hstate => exact .propose command hid hfree hstate
      · exact .refuse command
  | proposeNext id k expired =>
      simp only [step, Option.ite_none_right_eq_some, Option.map_eq_some_iff] at h
      obtain ⟨⟨hid, hfree⟩, p, hp, rfl⟩ := h
      refine ⟨_, _, _, rfl, ?_⟩
      rw [Process.proposeNextStep] at hp
      split at hp
      · cases hp
      · next call hcall =>
        split at hp <;> cases hp
        · next hpc => exact .advance k expired hid hfree call hcall hpc
        · next hpc => exact .send k expired hid hfree call hcall hpc
        · next hpc => exact .wait k expired call hcall hpc
  | snapshot id data =>
      simp only [step, Option.ite_none_right_eq_some, Option.map_eq_some_iff] at h
      obtain ⟨⟨hid, hfree⟩, p, hp, rfl⟩ := h
      refine ⟨_, _, _, rfl, ?_⟩
      rw [Process.snapshotStep] at hp
      split at hp
      · next hnone =>
        obtain ⟨snap, hsnap, rfl⟩ := Option.map_eq_some_iff.mp hp
        exact .capture data hid snap hnone hsnap
      · next snap hsnap => cases hp; exact .write data snap hsnap
      · next snap hsnap =>
        cases hp
        exact .trim data (hfree.resolve_right (by simp [hsnap])) snap hsnap
  | deliver packet =>
      simp only [step, Option.ite_none_right_eq_some, Option.map_eq_some_iff] at h
      obtain ⟨⟨hmem, hid, hfree⟩, ⟨n, reply⟩, hn, rfl⟩ := h
      obtain ⟨src, dst, msg⟩ := packet
      refine ⟨dst, _, _, rfl, ?_⟩
      cases msg with
      | requestVote req => cases hn; exact .requestVote src req hmem hid (by simpa [free] using hfree)
      | requestVoteResponse resp =>
          cases hn; exact .requestVoteResponse src resp hmem hid (by simpa [free] using hfree)
      | appendEntries req =>
          obtain ⟨n', hn', he⟩ := Option.map_eq_some_iff.mp hn
          cases he
          exact .appendEntries src req hmem hid (by simpa [free] using hfree) _ hn'
      | appendEntriesResponse resp => cases hn; exact .appendEntriesResponse src resp hmem hid
      | installSnapshot req => cases hn; exact .installSnapshot src req hmem
      | installSnapshotResponse resp => cases hn; exact .installSnapshotResponse src resp hmem
  | lose packet =>
      simp only [step, Option.ite_none_right_eq_some, Option.some.injEq] at h
      obtain ⟨hmem, rfl⟩ := h
      exact ⟨packet.dst, c.procs packet.dst, _, (put_self c _ _).symm, .lose packet hmem⟩
  | restart id =>
      simp only [step, Option.ite_none_right_eq_some, Option.some.injEq] at h
      obtain ⟨hid, rfl⟩ := h
      exact ⟨_, _, _, rfl, .restart hid⟩
  | crashHandling packet =>
      simp only [step, Option.ite_none_right_eq_some, Option.some.injEq] at h
      obtain ⟨⟨hmem, hid, -, hterm⟩, rfl⟩ := h
      exact ⟨_, _, _, rfl, .crashHandling packet hmem rfl hid hterm⟩

/-- The steps that change a node's log or snapshot position, and all others. -/
inductive LogChange (peers : List Bytes) (id : Bytes) (p : Process) (net : List Packet) :
    Action → Process → List Packet → Prop
  | same {a : Action} {p' : Process} {net' : List Packet} (hlog : p'.node.log = p.node.log)
      (hsnap : p'.node.snapshotLastIndex = p.node.snapshotLastIndex)
      (hterm : p'.node.snapshotLastTerm = p.node.snapshotLastTerm) : LogChange peers id p net a p' net'
  | propose (command : Bytes) (hstate : p.node.state = .leader) {p' : Process}
      (hn : p'.node = (p.node.propose ⟨id, peers⟩ command).1) :
      LogChange peers id p net (.propose id command) p' net
  | trim (data : Bytes) (snap : SnapshotMetadata) (hsnap : p.snapshot = some ⟨snap, true⟩) {p' : Process}
      (hn : p'.node = p.node.trimSnapshot snap) (hnone : p'.snapshot = none) :
      LogChange peers id p net (.snapshot id data) p' net
  | truncate (src : Bytes) (req : AppendEntriesRequest) (hmem : ⟨src, id, .appendEntries req⟩ ∈ net)
      (hterm : p.node.currentTerm ≤ req.term) (hsnap : p.node.snapshotLastIndex ≤ req.prevLogIndex)
      (hback : req.prevLogIndex ≤ (back p.node.log).index) (e : LogEntry)
      (he : p.node.getLogEntry req.prevLogIndex = some e) (hne : e.term ≠ req.prevLogTerm)
      (log : List LogEntry) (hlog : RaftNode.popFrom p.node.log req.prevLogIndex = some log) {p' : Process}
      (hn : p'.node = ({ p.node.follow req.leaderId req.term with log := log }.reject (back log).index).persistState) :
      LogChange peers id p net (.deliver ⟨src, id, .appendEntries req⟩) p'
        (⟨id, src, .appendEntriesResponse p'.node.aeResp⟩ :: net.erase ⟨src, id, .appendEntries req⟩)
  | accept (src : Bytes) (req : AppendEntriesRequest) (hmem : ⟨src, id, .appendEntries req⟩ ∈ net)
      (hterm : p.node.currentTerm ≤ req.term) (hsnap : p.node.snapshotLastIndex ≤ req.prevLogIndex)
      (hback : req.prevLogIndex ≤ (back p.node.log).index)
      (hprev : ∀ e, p.node.getLogEntry req.prevLogIndex = some e → e.term = req.prevLogTerm) {p' : Process}
      (hn : p'.node = (p.node.follow req.leaderId req.term).acceptEntries req) :
      LogChange peers id p net (.deliver ⟨src, id, .appendEntries req⟩) p'
        (⟨id, src, .appendEntriesResponse p'.node.aeResp⟩ :: net.erase ⟨src, id, .appendEntries req⟩)
  | install (src : Bytes) (req : InstallSnapshotRequest) (hmem : ⟨src, id, .installSnapshot req⟩ ∈ net)
      {p' : Process} {net' : List Packet} :
      LogChange peers id p net (.deliver ⟨src, id, .installSnapshot req⟩) p' net'
  | restart {p' : Process} : LogChange peers id p net (.restart id) p' net
  | crashHandling (packet : Packet) {p' : Process} {net' : List Packet} :
      LogChange peers id p net (.crashHandling packet) p' net'

theorem RaftNode.advanceCommitIndex_logs (cfg : RaftConfig) (n : RaftNode) :
    (n.advanceCommitIndex cfg).log = n.log ∧
      (n.advanceCommitIndex cfg).snapshotLastIndex = n.snapshotLastIndex ∧
      (n.advanceCommitIndex cfg).snapshotLastTerm = n.snapshotLastTerm := by
  obtain ⟨i, j, u, h⟩ := advanceCommitIndex_shape cfg n
  rw [h]
  exact ⟨rfl, rfl, rfl⟩

/-- Neither the log nor what was committed, applied or cut off of it has changed. -/
structure SameLog (n n' : RaftNode) : Prop where
  log : n'.log = n.log
  snapshotLastIndex : n'.snapshotLastIndex = n.snapshotLastIndex
  snapshotLastTerm : n'.snapshotLastTerm = n.snapshotLastTerm
  commitIndex : n'.commitIndex = n.commitIndex
  lastApplied : n'.lastApplied = n.lastApplied
  upper : n'.upper = n.upper

theorem sameLog_catchUp (n : RaftNode) (t : Nat) : SameLog n (n.catchUp t) := by constructor <;> simp

theorem sameLog_sendHeartbeats (cfg : RaftConfig) (n : RaftNode) : SameLog n (n.sendHeartbeats cfg) := by
  obtain ⟨l, h⟩ := RaftNode.sendHeartbeats_shape cfg n
  rw [h]
  exact ⟨rfl, rfl, rfl, rfl, rfl, rfl⟩

theorem sameLog_becomeLeader (cfg : RaftConfig) (n : RaftNode) : SameLog n (n.becomeLeader cfg) := by
  rw [RaftNode.becomeLeader_eq]
  exact ⟨rfl, rfl, rfl, rfl, rfl, rfl⟩

theorem sameLog_timerStep (cfg : RaftConfig) (p : Process) : SameLog p.node (p.timerStep cfg).1.node := by
  rw [Process.timerStep]
  split
  · exact ⟨rfl, rfl, rfl, rfl, rfl, rfl⟩
  · exact sameLog_sendHeartbeats cfg p.node
  · exact ⟨rfl, rfl, rfl, rfl, rfl, rfl⟩
  · exact ⟨rfl, rfl, rfl, rfl, rfl, rfl⟩
  · exact ⟨rfl, rfl, rfl, rfl, rfl, rfl⟩
  · exact sameLog_becomeLeader cfg p.node

theorem sameLog_handleRequestVote (n : RaftNode) (req : RequestVoteRequest) :
    SameLog n (n.handleRequestVote req).1 := by
  have ho := RaftNode.handleRequestVote_cases n req
  generalize n.handleRequestVote req = r at ho ⊢
  cases ho with
  | stale => exact ⟨rfl, rfl, rfl, rfl, rfl, rfl⟩
  | refuse => exact sameLog_catchUp n req.term
  | grant =>
      obtain ⟨h1, h2, h3, h4, h5, h6⟩ := sameLog_catchUp n req.term
      exact ⟨h1, h2, h3, h4, h5, h6⟩

theorem sameLog_handleRequestVoteResponse (cfg : RaftConfig) (n : RaftNode) (resp : RequestVoteResponse) :
    SameLog n (n.handleRequestVoteResponse cfg resp) := by
  have ho := RaftNode.handleRequestVoteResponse_cases cfg n resp
  generalize n.handleRequestVoteResponse cfg resp = r at ho ⊢
  cases ho with
  | adopt | ignore | count => exact ⟨rfl, rfl, rfl, rfl, rfl, rfl⟩
  | win =>
      obtain ⟨h1, h2, h3, h4, h5, h6⟩ := sameLog_becomeLeader cfg { n with votesReceived := n.votesReceived + 1 }
      exact ⟨h1, h2, h3, h4, h5, h6⟩

theorem ProcStep.logChange {peers : List Bytes} {id : Bytes} {p p' : Process} {net net' : List Packet}
    {a : Action} (h : ProcStep peers id p net a p' net') : LogChange peers id p net a p' net' := by
  have hsame (hs : SameLog p.node p'.node) : LogChange peers id p net a p' net' :=
    .same hs.log hs.snapshotLastIndex hs.snapshotLastTerm
  cases h with
  | timer => exact hsame (sameLog_timerStep _ p)
  | heartbeat | refuse | wait | capture | write | installSnapshotResponse | lose => exact .same rfl rfl rfl
  | propose command hid hfree hstate => exact .propose command hstate rfl
  | advance =>
      obtain ⟨h1, h2, h3⟩ := RaftNode.advanceCommitIndex_logs ⟨id, peers⟩ p.node
      exact .same h1 h2 h3
  | send => exact hsame (sameLog_sendHeartbeats _ p.node)
  | trim data hfree snap hsnap => exact .trim data snap hsnap rfl rfl
  | requestVote src req => exact hsame (sameLog_handleRequestVote p.node req)
  | requestVoteResponse src resp => exact hsame (sameLog_handleRequestVoteResponse _ p.node resp)
  | appendEntries src req hmem hid hfree n hn =>
      cases RaftNode.handleAppendEntries_cases hn with
      | stale => exact .same rfl rfl rfl
      | reject =>
          obtain ⟨h1, h2, h3, -, -, -⟩ := sameLog_catchUp p.node req.term
          exact .same h1 h2 h3
      | truncate hge hsnap hback e he hne log hlog =>
          exact .truncate src req hmem hge hsnap hback e he hne log hlog rfl
      | accept hge hsnap hback hprev => exact .accept src req hmem hge hsnap hback hprev rfl
  | appendEntriesResponse src resp =>
      have ho := RaftNode.handleAppendEntriesResponse_cases ⟨id, peers⟩ p.node src resp
      generalize p.node.handleAppendEntriesResponse ⟨id, peers⟩ src resp = r at ho ⊢
      cases ho with
      | adopt | ignore | retry => exact .same rfl rfl rfl
      | matched =>
          obtain ⟨h1, h2, h3⟩ := RaftNode.advanceCommitIndex_logs ⟨id, peers⟩ { p.node with
            matchIndex := Function.update p.node.matchIndex src (some resp.matchIndex)
            nextIndex := Function.update p.node.nextIndex src (some (resp.matchIndex + 1)) }
          exact .same h1 h2 h3
  | installSnapshot src req hmem => exact .install src req hmem
  | restart => exact .restart
  | crashHandling packet => exact .crashHandling packet

/-- A node has committed up to `k` and applied what it found in the log it has now. -/
structure Commit (n n' : RaftNode) (k : Nat) : Prop where
  new : n.commitIndex < k
  back : k ≤ (back n'.log).index
  commitIndex : n'.commitIndex = k
  lastApplied : n'.lastApplied = max n.lastApplied k
  upper : n'.upper = n.upper ++ (List.range' (n.lastApplied + 1) (k - n.lastApplied)).map
    fun i => .applied i (n'.getLogEntry i)

theorem Commit.of_eq {n m n' : RaftNode} {k : Nat} (h : Commit m n' k) (hcommit : m.commitIndex = n.commitIndex)
    (happlied : m.lastApplied = n.lastApplied) (hupper : m.upper = n.upper) : Commit n n' k where
  new := hcommit ▸ h.new
  back := h.back
  commitIndex := h.commitIndex
  lastApplied := happlied ▸ h.lastApplied
  upper := happlied ▸ hupper ▸ h.upper

theorem commit_advanceCommitIndex (cfg : RaftConfig) (n : RaftNode) : n.advanceCommitIndex cfg = n ∨
    ∃ k, Commit n (n.advanceCommitIndex cfg) k := by
  rcases RaftNode.advanceFrom_cases cfg n (back n.log).index with h | ⟨k, hk, hb, -, h⟩
  · exact .inl h
  · have h : n.advanceCommitIndex cfg = _ := h
    rw [RaftNode.applyCommitted_eq] at h
    rw [h]
    exact .inr ⟨k, hk, hb, rfl, rfl, rfl⟩

theorem commit_followCommit (n : RaftNode) (leaderCommit : Nat) : n.followCommit leaderCommit = n ∨
    ∃ k ≤ leaderCommit, Commit n (n.followCommit leaderCommit) k := by
  rcases RaftNode.followCommit_cases n leaderCommit with ⟨-, h⟩ | ⟨hk, h⟩
  · exact .inl h
  · rw [RaftNode.applyCommitted_eq] at h
    rw [h]
    exact .inr ⟨_, min_le_left _ _, hk, min_le_right _ _, rfl, rfl, rfl⟩

/-- Who may commit: a leader, a Propose call, whatever its node's role has become, and a follower as far as it is told. -/
inductive CommitCause (id : Bytes) (p p' : Process) (net : List Packet) (k : Nat) : Action → Prop
  | leader (src : Bytes) (resp : AppendEntriesResponse) (hstate : p.node.state = .leader)
      (hstate' : p'.node.state = .leader) : CommitCause id p p' net k (.deliver ⟨src, id, .appendEntriesResponse resp⟩)
  | propose (j : Nat) (expired : Bool) (call : ProposeCall) (hcall : p.calls[j]? = some call)
      (hpc : call.pc = .advance) (hstate : p'.node.state = p.node.state) :
      CommitCause id p p' net k (.proposeNext id j expired)
  | follow (src : Bytes) (req : AppendEntriesRequest) (hmem : ⟨src, id, .appendEntries req⟩ ∈ net)
      (hle : k ≤ req.leaderCommit) : CommitCause id p p' net k (.deliver ⟨src, id, .appendEntries req⟩)

/-- The steps that commit and apply, and all others. -/
inductive CommitChange (id : Bytes) (p : Process) (net : List Packet) : Action → Process → Prop
  | same {a : Action} {p' : Process} (hcommit : p'.node.commitIndex = p.node.commitIndex)
      (happlied : p'.node.lastApplied = p.node.lastApplied) (hupper : p'.node.upper = p.node.upper) :
      CommitChange id p net a p'
  | commit {a : Action} {p' : Process} (k : Nat) (h : Commit p.node p'.node k)
      (hcause : CommitCause id p p' net k a) :
      CommitChange id p net a p'
  | install (src : Bytes) (req : InstallSnapshotRequest) (hmem : ⟨src, id, .installSnapshot req⟩ ∈ net)
      {p' : Process} : CommitChange id p net (.deliver ⟨src, id, .installSnapshot req⟩) p'
  | restart {p' : Process} : CommitChange id p net (.restart id) p'
  | crashHandling (packet : Packet) {p' : Process} : CommitChange id p net (.crashHandling packet) p'

theorem ProcStep.commitChange {peers : List Bytes} {id : Bytes} {p p' : Process} {net net' : List Packet}
    {a : Action} (h : ProcStep peers id p net a p' net') : CommitChange id p net a p' := by
  have hsame (hs : SameLog p.node p'.node) : CommitChange id p net a p' :=
    .same hs.commitIndex hs.lastApplied hs.upper
  cases h with
  | timer => exact hsame (sameLog_timerStep _ p)
  | heartbeat | refuse | propose | wait | capture | write | trim | installSnapshotResponse | lose =>
      exact .same rfl rfl rfl
  | advance j expired hid hfree call hcall hpc =>
      rcases commit_advanceCommitIndex ⟨id, peers⟩ p.node with h | ⟨k, h⟩
      · rw [h]; exact .same rfl rfl rfl
      · exact .commit k h (.propose j expired call hcall hpc (RaftNode.advanceCommitIndex_state _ _))
  | send => exact hsame (sameLog_sendHeartbeats _ p.node)
  | requestVote src req => exact hsame (sameLog_handleRequestVote p.node req)
  | requestVoteResponse src resp => exact hsame (sameLog_handleRequestVoteResponse _ p.node resp)
  | appendEntries src req hmem hid hfree n hn =>
      cases RaftNode.handleAppendEntries_cases hn with
      | stale => exact .same rfl rfl rfl
      | reject | truncate =>
          obtain ⟨-, -, -, h1, h2, h3⟩ := sameLog_catchUp p.node req.term
          exact .same h1 h2 h3
      | accept =>
          obtain ⟨-, -, -, hc, ha, hu⟩ := sameLog_catchUp p.node req.term
          rcases commit_followCommit ((p.node.follow req.leaderId req.term).storeEntries req.entries)
            req.leaderCommit with h | ⟨k, hk, h⟩
          · rw [RaftNode.acceptEntries, h]
            exact .same hc ha hu
          · have hn : Commit p.node (((p.node.follow req.leaderId req.term).storeEntries req.entries).followCommit
                req.leaderCommit) k := h.of_eq hc ha hu
            exact .commit k ⟨hn.new, hn.back, hn.commitIndex, hn.lastApplied, hn.upper⟩ (.follow src req hmem hk)
  | appendEntriesResponse src resp =>
      have ho := RaftNode.handleAppendEntriesResponse_cases ⟨id, peers⟩ p.node src resp
      generalize p.node.handleAppendEntriesResponse ⟨id, peers⟩ src resp = r at ho ⊢
      cases ho with
      | adopt | ignore | retry => exact .same rfl rfl rfl
      | matched ht hstate =>
          rcases commit_advanceCommitIndex ⟨id, peers⟩ { p.node with
            matchIndex := Function.update p.node.matchIndex src (some resp.matchIndex)
            nextIndex := Function.update p.node.nextIndex src (some (resp.matchIndex + 1)) } with h | ⟨k, h⟩
          · rw [h]; exact .same rfl rfl rfl
          · refine .commit k ⟨h.new, h.back, h.commitIndex, h.lastApplied, h.upper⟩ (.leader src resp hstate ?_)
            exact (RaftNode.advanceCommitIndex_state _ _).trans hstate
  | installSnapshot src req hmem => exact .install src req hmem
  | restart => exact .restart
  | crashHandling packet => exact .crashHandling packet

/-- Requests with entries come from SendHeartbeats alone, and nobody asks anyone to install a snapshot. -/
theorem ProcStep.sends {peers : List Bytes} {id : Bytes} {p p' : Process} {net net' : List Packet}
    {a : Action} (h : ProcStep peers id p net a p' net') {q : Packet} (hq : q ∈ net') :
    q ∈ net ∨ (∃ peer rest, a = .heartbeat id ∧ p.node.sending = peer :: rest ∧
      q = ⟨id, peer, .appendEntries (p.node.heartbeatRequest ⟨id, peers⟩ peer)⟩) ∨
      (∃ req, q.msg = .requestVote req) ∨ (∃ resp, q.msg = .requestVoteResponse resp) ∨
      (∃ resp, q.msg = .appendEntriesResponse resp) ∨ ∃ src req, ⟨src, id, .installSnapshot req⟩ ∈ net := by
  cases h with
  | timer =>
      rw [Process.timerStep] at hq
      split at hq
      all_goals try exact .inl hq
      rcases List.mem_append.mp hq with hq | hq
      · obtain ⟨peer, -, rfl⟩ := List.mem_map.mp hq
        exact .inr (.inr (.inl ⟨_, rfl⟩))
      · exact .inl hq
  | heartbeat peer rest hsend =>
      rcases List.mem_cons.mp hq with rfl | hq
      · exact .inr (.inl ⟨peer, rest, rfl, hsend, rfl⟩)
      · exact .inl hq
  | requestVote =>
      rcases List.mem_cons.mp hq with rfl | hq
      · exact .inr (.inr (.inr (.inl ⟨_, rfl⟩)))
      · exact .inl (List.mem_of_mem_erase hq)
  | appendEntries =>
      rcases List.mem_cons.mp hq with rfl | hq
      · exact .inr (.inr (.inr (.inr (.inl ⟨_, rfl⟩))))
      · exact .inl (List.mem_of_mem_erase hq)
  | installSnapshot src req hmem => exact .inr (.inr (.inr (.inr (.inr ⟨src, req, hmem⟩))))
  | requestVoteResponse | appendEntriesResponse | installSnapshotResponse | lose | crashHandling =>
      exact .inl (List.mem_of_mem_erase hq)
  | _ => exact .inl hq

end MiniStorage.Raft
