import MiniStorage.Raft.Ordered

namespace MiniStorage.Raft

open RaftNode

variable {peers : List Bytes} {c c' : Cluster} {id : Bytes} {p p' : Process} {net net' : List Packet} {act : Action}
  {acts : List Action} {n : RaftNode} {H : Nat}

/-- The last index of the state file. -/
def RaftNode.fileEnd (n : RaftNode) : Nat := (n.stateFile.map fun file => (back ({} :: file.entries)).index).getD 0

theorem Intact.fileEnd (h : n.Intact) : n.fileEnd = (back n.log).index := by
  rw [RaftNode.fileEnd]
  rcases h.file with hf | ⟨hf, -, -, hl⟩
  · rw [hf, h.sentinel]
    rfl
  · rw [hf, hl]
    rfl

/-- The position of the snapshot file. -/
def RaftNode.snapshotEnd (n : RaftNode) : Nat := (n.snapshotFile.map (·.lastIncludedIndex)).getD 0

theorem restoreFromSnapshot_commitIndex (h : n.snapshotLastIndex = 0) :
    n.restoreFromSnapshot.commitIndex = max n.commitIndex n.snapshotEnd ∧
      n.restoreFromSnapshot.snapshotLastIndex = n.snapshotEnd := by
  rw [restoreFromSnapshot, snapshotEnd]
  cases n.snapshotFile with
  | none => exact ⟨(Nat.max_zero _).symm, h⟩
  | some snap =>
      dsimp only
      split
      · next hlt => exact ⟨(max_eq_right hlt.le).symm, rfl⟩
      · next hge => exact ⟨(max_eq_left (Nat.not_lt.mp hge)).symm, rfl⟩

/-- Start takes all of the state file and all of the snapshot for committed. -/
theorem restart_commitIndex (n : RaftNode) : (Process.restart n).node.commitIndex = max n.fileEnd n.snapshotEnd ∧
    (Process.restart n).node.snapshotLastIndex = n.snapshotEnd := by
  obtain ⟨m, hm⟩ : ∃ m, m = { stateFile := n.stateFile, snapshotFile := n.snapshotFile : RaftNode }.restoreState :=
    ⟨_, rfl⟩
  have hstate : m.commitIndex = n.fileEnd ∧ m.snapshotFile = n.snapshotFile ∧ m.snapshotLastIndex = 0 := by
    rw [hm, restoreState, fileEnd]
    cases n.stateFile <;> exact ⟨rfl, rfl, rfl⟩
  obtain ⟨hc, hf, hs⟩ := hstate
  obtain ⟨hc', hs'⟩ := restoreFromSnapshot_commitIndex hs
  rw [hc, snapshotEnd, hf] at hc'
  rw [snapshotEnd, hf] at hs'
  rw [Process.restart, RaftNode.start, ← hm, becomeFollower_self]
  exact ⟨hc', hs'⟩

theorem restart_snapshotFile (n : RaftNode) : (Process.restart n).node.snapshotFile = n.snapshotFile := by
  rw [restart_field snapshotFile (fun _ _ _ _ _ _ => rfl) fun _ => rfl, restoreState]
  cases n.stateFile <;> rfl

theorem ProcStep.snapshotFile_cases (hp : ProcStep peers id p net act p' net') (hcrash : noCrash act = true)
    (hinst : ∀ src req, act ≠ .deliver ⟨src, id, .installSnapshot req⟩) : p'.node.snapshotFile = p.node.snapshotFile ∨
      ∃ snap, p.snapshot = some ⟨snap, false⟩ ∧ p'.snapshot = some ⟨snap, true⟩ ∧ p'.node.snapshotFile = some snap := by
  cases hp with
  | timer =>
      rw [Process.timerStep]
      split
      · exact .inl rfl
      · obtain ⟨l, hl⟩ := sendHeartbeats_shape ⟨id, peers⟩ p.node
        rw [hl]
        exact .inl rfl
      · exact .inl rfl
      · exact .inl rfl
      · exact .inl rfl
      · rw [becomeLeader_eq]; exact .inl rfl
  | advance =>
      obtain ⟨i, j, u, h⟩ := advanceCommitIndex_shape ⟨id, peers⟩ p.node
      rw [h]
      exact .inl rfl
  | send =>
      obtain ⟨l, hl⟩ := sendHeartbeats_shape ⟨id, peers⟩ p.node
      rw [hl]
      exact .inl rfl
  | write data snap hsnap => exact .inr ⟨snap, hsnap, rfl, rfl⟩
  | requestVote src req =>
      have ho := handleRequestVote_cases p.node req
      generalize p.node.handleRequestVote req = r at ho ⊢
      cases ho with
      | stale => exact .inl rfl
      | refuse | grant => exact .inl (catchUp_snapshotFile _)
  | requestVoteResponse src resp =>
      have ho := handleRequestVoteResponse_cases ⟨id, peers⟩ p.node resp
      generalize p.node.handleRequestVoteResponse ⟨id, peers⟩ resp = r at ho ⊢
      cases ho with
      | adopt | ignore | count => exact .inl rfl
      | win => rw [becomeLeader_eq]; exact .inl rfl
  | appendEntries src req hmem hid hfree n hn =>
      cases handleAppendEntries_cases hn with
      | stale => exact .inl rfl
      | reject | truncate => exact .inl (catchUp_snapshotFile _)
      | accept =>
          rw [acceptEntries_snapshotFile]
          exact .inl (catchUp_snapshotFile _)
  | appendEntriesResponse src resp =>
      have ho := handleAppendEntriesResponse_cases ⟨id, peers⟩ p.node src resp
      generalize p.node.handleAppendEntriesResponse ⟨id, peers⟩ src resp = r at ho ⊢
      cases ho with
      | adopt | ignore | retry => exact .inl rfl
      | matched =>
          obtain ⟨i, j, u, h⟩ := advanceCommitIndex_shape ⟨id, peers⟩ { p.node with
            matchIndex := Function.update p.node.matchIndex src (some resp.matchIndex)
            nextIndex := Function.update p.node.nextIndex src (some (resp.matchIndex + 1)) }
          rw [h]
          exact .inl rfl
  | installSnapshot src req => exact absurd rfl (hinst src req)
  | restart | crashHandling => cases hcrash
  | _ => exact .inl rfl

/-- The sections of TakeSnapshot, and all other steps that neither stop the process nor install a snapshot. -/
inductive SnapshotChange (p : Process) : Process → Prop
  | same {p' : Process} (hcall : p'.snapshot = p.snapshot) (hfile : p'.node.snapshotFile = p.node.snapshotFile)
      (hindex : p'.node.snapshotLastIndex = p.node.snapshotLastIndex) : SnapshotChange p p'
  | capture (data : Bytes) (snap : SnapshotMetadata) (hnone : p.snapshot = none)
      (hcap : p.node.captureSnapshot data = some snap) : SnapshotChange p { p with snapshot := some ⟨snap, false⟩ }
  | write (snap : SnapshotMetadata) (hcall : p.snapshot = some ⟨snap, false⟩) : SnapshotChange p
      { p with node := { p.node with snapshotFile := some snap }, snapshot := some ⟨snap, true⟩ }
  | trim (snap : SnapshotMetadata) (hcall : p.snapshot = some ⟨snap, true⟩) :
      SnapshotChange p { p with node := p.node.trimSnapshot snap, snapshot := none }

theorem ProcStep.snapshotChange (hp : ProcStep peers id p net act p' net') (hcrash : noCrash act = true)
    (hinst : ∀ src req, act ≠ .deliver ⟨src, id, .installSnapshot req⟩) : SnapshotChange p p' := by
  cases hsnap : noSnapshot act with
  | false =>
      cases hp with
      | capture data hid snap hnone hcap => exact .capture data snap hnone hcap
      | write data snap hcall => exact .write snap hcall
      | trim data hfree snap hcall => exact .trim snap hcall
      | _ => cases hsnap
  | true =>
      have hcall := hp.snapshot_call hcrash hsnap
      refine .same hcall ?_ ?_
      · rcases hp.snapshotFile_cases hcrash hinst with hsame | ⟨snap, hold, hnew, -⟩
        · exact hsame
        · rw [hcall, hold] at hnew
          cases hnew
      · rcases hp.snapshot_index hcrash hinst with hsame | ⟨snap, hold, hnew, -⟩
        · exact hsame
        · rw [hcall, hold] at hnew
          cases hnew

/-- The node whose thread runs. -/
def Action.actor : Action → Bytes
  | .timer id | .heartbeat id | .propose id _ | .proposeNext id _ _ | .snapshot id _ | .restart id => id
  | .deliver packet | .lose packet | .crashHandling packet => packet.dst

/-- The index a leader has moved its commit index to in a step. -/
def leaderMark (c c' : Cluster) (act : Action) : Nat :=
  if (c.node act.actor).state = .leader ∧ (c'.node act.actor).state = .leader ∧
      (c.node act.actor).commitIndex < (c'.node act.actor).commitIndex then (c'.node act.actor).commitIndex
  else 0

/-- The cluster beside the highest index some leader has moved its commit index to. -/
def markStep (peers : List Bytes) (s : Cluster × Nat) (act : Action) : Option (Cluster × Nat) :=
  (step peers s.1 act).map fun c => (c, max s.2 (leaderMark s.1 c act))

/-- The node a restart starts from, with the files as they are then. -/
def Action.restarts (c : Cluster) : Action → Option (Bytes × RaftNode)
  | .restart id => some (id, c.node id)
  | .crashHandling packet => some (packet.dst, (c.node packet.dst).adoptTerm packet.msg.term)
  | _ => none

/-- RestoreState takes the whole state file for committed. Here it holds nothing past what a leader has committed. -/
def restartsWithin (c : Cluster) (H : Nat) (act : Action) : Bool := (act.restarts c).all fun (_, n) => n.fileEnd ≤ H

/-- Nobody has committed more than some leader has. -/
structure Marked (c : Cluster) (H : Nat) : Prop where
  noInstall : NoInstall c.net
  counters : ∀ id, Counters (c.procs id)
  commit : ∀ id, (c.node id).commitIndex ≤ H
  file : ∀ id, (c.node id).snapshotEnd ≤ H
  sent : ∀ q ∈ c.net, ∀ req, q.msg = .appendEntries req → req.leaderCommit ≤ H

theorem ProcStep.restarts_cases (hp : ProcStep peers id p net act p' net') (hcrash : noCrash act = false) :
    ∃ n, p' = Process.restart n ∧ n.snapshotFile = p.node.snapshotFile ∧
      ∀ c : Cluster, c.procs id = p → act.restarts c = some (id, n) := by
  cases hp with
  | restart => exact ⟨p.node, rfl, rfl, fun c hc => by rw [Action.restarts, Cluster.node, hc]⟩
  | crashHandling packet hmem hdst hid hterm =>
      subst hdst
      exact ⟨p.node.adoptTerm packet.msg.term, rfl, rfl, fun c hc => by rw [Action.restarts, Cluster.node, hc]⟩
  | _ => cases hcrash

theorem Marked.commit_le (h : Marked c H) {k : Nat} (hk : Commit (c.node id) p'.node k)
    (hcause : CommitCause id (c.procs id) p' c.net k act) (hadvance : advancesAsLeader c act = true) :
    k ≤ max H (leaderMark c (c.put id p' net') act) := by
  have hmark (hact : act.actor = id) (hl : (c.node id).state = .leader) (hl' : p'.node.state = .leader) :
      k ≤ max H (leaderMark c (c.put id p' net') act) := by
    have hlt := hk.new
    have hc := hk.commitIndex
    rw [leaderMark, hact, put_node, if_pos ⟨hl, hl', by omega⟩, hc]
    exact le_max_right _ _
  cases hcause with
  | leader src resp hstate hstate' => exact hmark rfl hstate hstate'
  | propose j expired call hcall hpc hstate =>
      have hl : (c.node id).state = .leader := of_decide_eq_true hadvance (by rw [hcall]; simp [hpc])
      exact hmark rfl hl (hstate.trans hl)
  | follow src req hmem hle => exact (hle.trans (h.sent _ hmem req rfl)).trans (le_max_left _ _)

theorem Marked.restart_le (h : Marked c H) (hs : n.snapshotFile = (c.node id).snapshotFile) :
    (Process.restart n).node.commitIndex ≤ H ↔ n.fileEnd ≤ H := by
  have hsnap : n.snapshotEnd ≤ H := by
    rw [snapshotEnd, hs]
    exact h.file id
  rw [(restart_commitIndex n).1]
  omega

theorem Marked.step (h : Marked c H) (hp : ProcStep peers id (c.procs id) c.net act p' net')
    (hadvance : advancesAsLeader c act = true) (hrestart : restartsWithin c H act = true) :
    Marked (c.put id p' net') (max H (leaderMark c (c.put id p' net') act)) := by
  have hmono {k : Nat} (hk : k ≤ H) : k ≤ max H (leaderMark c (c.put id p' net') act) := hk.trans (le_max_left _ _)
  have hnode : p'.node.commitIndex ≤ max H (leaderMark c (c.put id p' net') act) ∧ p'.node.snapshotEnd ≤ H := by
    cases hcrash : noCrash act with
    | false =>
        obtain ⟨n, rfl, hs, hn⟩ := hp.restarts_cases hcrash
        have hn := hn c rfl
        rw [restartsWithin, hn] at hrestart
        refine ⟨hmono ((h.restart_le hs).mpr (of_decide_eq_true hrestart)), ?_⟩
        rw [snapshotEnd, restart_snapshotFile, hs]
        exact h.file id
    | true =>
        refine ⟨?_, ?_⟩
        · cases hp.commitChange with
          | same hcommit => exact hcommit.trans_le (hmono (h.commit id))
          | commit k hk hcause => exact hk.commitIndex.trans_le (h.commit_le hk hcause hadvance)
          | install src req hmem => exact absurd rfl (h.noInstall _ hmem req)
          | restart | crashHandling => cases hcrash
        · rcases hp.snapshotFile_cases hcrash (hp.not_install h.noInstall) with hf | ⟨snap, hsnap, -, hf⟩
          · rw [snapshotEnd, hf]; exact h.file id
          · rw [snapshotEnd, hf]
            have hle := ((h.counters id).pending _ hsnap).2
            rw [(h.counters id).applied] at hle
            exact hle.trans (h.commit id)
  refine ⟨hp.noInstall h.noInstall, ?_, ?_, ?_, fun q hq req hreq => ?_⟩
  · exact put_cases (P := fun _ p => Counters p) c net' ((h.counters id).step hp h.noInstall) fun w _ => h.counters w
  · exact put_cases (P := fun _ p => p.node.commitIndex ≤ max H (leaderMark c (c.put id p' net') act)) c net' hnode.1
      fun w _ => hmono (h.commit w)
  · exact put_cases (P := fun _ p => p.node.snapshotEnd ≤ max H (leaderMark c (c.put id p' net') act)) c net'
      (hmono hnode.2) fun w _ => hmono (h.file w)
  · rcases hp.sends hq with hq | ⟨peer, rest, rfl, hpeer, rfl⟩ | ⟨r, hr⟩ | ⟨r, hr⟩ | ⟨r, hr⟩ | ⟨src, r, hmem⟩
    · exact hmono (h.sent q hq req hreq)
    · cases hreq
      exact hmono (h.commit id)
    · rw [hr] at hreq; cases hreq
    · rw [hr] at hreq; cases hreq
    · rw [hr] at hreq; cases hreq
    · exact absurd rfl (h.noInstall _ hmem r)

theorem Marked.start : Marked start 0 where
  noInstall _ hq := absurd hq List.not_mem_nil
  counters _ := ⟨rfl, le_rfl, nofun⟩
  commit _ := le_rfl
  file _ := le_rfl
  sent _ hq := absurd hq List.not_mem_nil

/-- Runs in which only leaders advance their commit index and every restart is within the mark. -/
abbrev MarkedRun (peers : List Bytes) : Cluster × Nat → List Action → Cluster × Nat → Prop :=
  Runs.Run (markStep peers) fun s act => (advancesAsLeader s.1 act && restartsWithin s.1 s.2 act) = true

theorem MarkedRun.marked (h : MarkedRun peers (start, 0) acts (c, H)) : Marked c H := by
  refine Runs.Run.invariant (I := fun s => Marked s.1 s.2) (fun s act s' hi hg hs => ?_) .start h
  obtain ⟨c', hc', rfl⟩ := Option.map_eq_some_iff.mp hs
  obtain ⟨id, p', net', rfl, hp⟩ := step_cases hc'
  obtain ⟨hadvance, hrestart⟩ := Bool.and_eq_true_iff.mp hg
  exact hi.step hp hadvance hrestart

/-- A restart commits no more than some leader has exactly when its state file reaches no further. -/
theorem restart_commits (h : MarkedRun peers (start, 0) acts (c, H)) (hr : act.restarts c = some (id, n))
    (hs : step peers c act = some c') : (c'.node id).commitIndex ≤ H ↔ n.fileEnd ≤ H := by
  obtain ⟨w, p', net', rfl, hp⟩ := step_cases hs
  have hcrash : noCrash act = false := by
    cases act with
    | restart | crashHandling => rfl
    | _ => cases hr
  obtain ⟨m, rfl, hfile, hm⟩ := hp.restarts_cases hcrash
  rw [hm c rfl, Option.some.injEq, Prod.mk.injEq] at hr
  obtain ⟨rfl, rfl⟩ := hr
  rw [put_node]
  exact h.marked.restart_le hfile

/-- A leader that has committed its one entry restarts. -/
theorem restart_commits_trio : ∃ c c' H, step Trio.peers c (.restart Trio.a) = some c' ∧ H = 1 ∧
    (c'.node Trio.a).commitIndex ≤ H := by
  obtain ⟨⟨c, H⟩, h, hp⟩ := Runs.exists_run_of_exec (markStep Trio.peers)
    (fun s act => (advancesAsLeader s.1 act && restartsWithin s.1 s.2 act) = true) (start, 0)
    (Trio.election Trio.a Trio.b 1 0 0 ++ [.propose Trio.a [1]] ++ Trio.heartbeats Trio.a ++
      Trio.exchange Trio.a Trio.b ⟨1, Trio.a, 0, 0, [⟨1, 1, [1]⟩], 0⟩ 1)
    (fun s => s.2 = 1 ∧ (s.1.node Trio.a).fileEnd ≤ s.2 ∧ (step Trio.peers s.1 (.restart Trio.a)).isSome) rfl
  obtain ⟨hH, hfile, hs⟩ := of_decide_eq_true hp
  obtain ⟨c', hs⟩ := Option.isSome_iff_exists.mp hs
  exact ⟨c, c', H, hs, hH, (restart_commits h rfl hs).mpr hfile⟩

/-- A leader restarts over an entry that nobody else has. -/
theorem restart_commits_more : ∃ acts c H c', Runs.Run (markStep Trio.peers) (fun _ _ => True) (start, 0) acts (c, H) ∧
    step Trio.peers c (.restart Trio.a) = some c' ∧ ¬ (c'.node Trio.a).commitIndex ≤ H := by
  obtain ⟨⟨c, H⟩, h, hp⟩ := Runs.exists_run_of_exec (markStep Trio.peers) (fun _ _ => True) (start, 0)
    (Trio.election Trio.a Trio.b 1 0 0 ++ [.propose Trio.a [1]])
    (fun s => (step Trio.peers s.1 (.restart Trio.a)).any fun c' => ¬ (c'.node Trio.a).commitIndex ≤ s.2) rfl
  obtain ⟨c', hs, hmore⟩ := (Option.any_eq_true _ _).mp hp
  exact ⟨_, c, H, c', h, hs, of_decide_eq_true hmore⟩

end MiniStorage.Raft
