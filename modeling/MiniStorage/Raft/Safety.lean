import MiniStorage.Raft.Sound

namespace MiniStorage.Raft

open Replication

variable {peers : List Bytes} {a : Ghost} {c c' : Cluster} {id : Bytes} {act : Action} {acts acts' : List Action}

/-- The steps of a run without crashes and snapshots at which the code does what the protocol asks for. -/
def followsProtocol (c : Cluster) (act : Action) : Bool :=
  noCrash act && noSnapshot act && acceptsMatch c act && countsOwnTerm c act && sendsAsLeader c act &&
    advancesAsLeader c act

theorem Unsnapped.sound (hc : Unsnapped c) (h : followsProtocol c act = true) (peers : List Bytes) :
    noCrash act = true ∧ noSnapshot act = true ∧ sound peers c act = true := by
  obtain ⟨hsend, hvote, hpropose⟩ := hc.guards peers act
  simp only [followsProtocol, Bool.and_eq_true] at h
  obtain ⟨⟨⟨⟨⟨hcrash, hsnap⟩, haccept⟩, hcount⟩, hlead⟩, hadvance⟩ := h
  refine ⟨hcrash, hsnap, ?_⟩
  simp only [Raft.sound, Bool.and_eq_true]
  exact ⟨⟨⟨⟨⟨⟨haccept, hcount⟩, hlead⟩, hadvance⟩, hsend⟩, hvote⟩, hpropose⟩

theorem run_followsProtocol (hnd : peers.Nodup) (hnil : [] ∉ peers)
    (h : Runs.Run (step peers) (fun c act => followsProtocol c act = true) start acts c) : ∃ a, Sound peers a c := by
  suffices hi : (∃ a, Sound peers a c) ∧ Unsnapped c from hi.1
  refine Runs.Run.invariant (I := fun c => (∃ a, Sound peers a c) ∧ Unsnapped c) (fun c act c' hi hg hs => ?_)
    ⟨⟨_, .start peers⟩, fun _ => ⟨rfl, rfl⟩⟩ h
  obtain ⟨⟨a, ha⟩, hc⟩ := hi
  obtain ⟨id, p', net', rfl, hp⟩ := step_cases hs
  obtain ⟨hcrash, hsnap, hg⟩ := hc.sound hg peers
  obtain ⟨b, -, hb⟩ := ha.step hnd hnil hcrash hg hp
  exact ⟨⟨b, hb⟩, hc.step hp hcrash hsnap ha.mirror.no_install⟩

theorem Sound.applied_agree (h : Sound peers a c) {v w : Bytes} {i : Nat} {x y : Bytes}
    (hx : (i, x) ∈ applyCalls (c.node v).upper) (hy : (i, y) ∈ applyCalls (c.node w).upper) : x = y := by
  have hv := h.accounts v
  have hw := h.accounts w
  rw [Cluster.node, hv.upper] at hx
  rw [Cluster.node, hw.upper] at hy
  obtain ⟨hi, hiv, e, he, rfl⟩ := mem_applyCalls_trace hx
  obtain ⟨-, hiw, f, hf, rfl⟩ := mem_applyCalls_trace hy
  have hagree := hv.settled.agree (fun _ _ => Majority.inter) h.mirror.inv hw.settled
    (show i - 1 < _ by omega) (show i - 1 < _ by omega)
  rw [he, hf] at hagree
  exact congrArg LogEntry.command (Option.some.inj hagree)

theorem state_machine_safety (hnd : peers.Nodup) (hnil : [] ∉ peers)
    (h : Runs.Run (step peers) (fun c act => followsProtocol c act = true) start acts c) {v w : Bytes} {i : Nat}
    {x y : Bytes} (hx : (i, x) ∈ applyCalls (c.node v).upper) (hy : (i, y) ∈ applyCalls (c.node w).upper) :
    x = y := by
  obtain ⟨a, ha⟩ := run_followsProtocol hnd hnil h
  exact ha.applied_agree hx hy

/-- A leader commits an entry with one follower, which applies it with the next heartbeat. -/
theorem state_machine_safety_trio : ∃ c, Runs.Run (step Trio.peers) (fun c act => followsProtocol c act = true) start
      (Trio.election Trio.a Trio.b 1 0 0 ++ [.propose Trio.a [1]] ++ Trio.heartbeats Trio.a ++
        Trio.exchange Trio.a Trio.b ⟨1, Trio.a, 0, 0, [⟨1, 1, [1]⟩], 0⟩ 1 ++ Trio.heartbeats Trio.a ++
        [.deliver ⟨Trio.a, Trio.b, .appendEntries ⟨1, Trio.a, 1, 1, [], 1⟩⟩]) c ∧
    (1, [1]) ∈ applyCalls (c.node Trio.a).upper ∧ ∀ x, (1, x) ∈ applyCalls (c.node Trio.b).upper → [1] = x := by
  obtain ⟨c, h, hp⟩ := Runs.exists_run_of_exec (step Trio.peers) (fun c act => followsProtocol c act = true) start
    (Trio.election Trio.a Trio.b 1 0 0 ++ [.propose Trio.a [1]] ++ Trio.heartbeats Trio.a ++
      Trio.exchange Trio.a Trio.b ⟨1, Trio.a, 0, 0, [⟨1, 1, [1]⟩], 0⟩ 1 ++ Trio.heartbeats Trio.a ++
      [.deliver ⟨Trio.a, Trio.b, .appendEntries ⟨1, Trio.a, 1, 1, [], 1⟩⟩])
    (fun c => (1, [1]) ∈ applyCalls (c.node Trio.a).upper ∧ (1, [1]) ∈ applyCalls (c.node Trio.b).upper) rfl
  obtain ⟨ha, -⟩ := of_decide_eq_true hp
  exact ⟨c, h, ha, fun x hx => state_machine_safety (by decide) (by decide) h ha hx⟩

/-- A deposed leader keeps its entry at 1, says success to the new leader's and applies its own. -/
theorem applied_differ : ∃ acts c x y, Runs.Run (step Trio.peers)
    (fun _ act => (noCrash act && noSnapshot act) = true) start acts c ∧
    (1, x) ∈ applyCalls (c.node Trio.a).upper ∧ (1, y) ∈ applyCalls (c.node Trio.b).upper ∧ x ≠ y := by
  obtain ⟨c, h, hp⟩ := Runs.exists_run_of_exec (step Trio.peers)
    (fun _ act => (noCrash act && noSnapshot act) = true) start
    (Trio.election Trio.a Trio.b 1 0 0 ++ [.propose Trio.a [1]] ++ Trio.election Trio.b Trio.c 2 0 0 ++
      [.propose Trio.b [2]] ++ Trio.heartbeats Trio.b ++
      Trio.exchange Trio.b Trio.c ⟨2, Trio.b, 0, 0, [⟨2, 1, [2]⟩], 0⟩ 1 ++ Trio.heartbeats Trio.b ++
      [.deliver ⟨Trio.b, Trio.a, .appendEntries ⟨2, Trio.b, 0, 0, [⟨2, 1, [2]⟩], 1⟩⟩])
    (fun c => (1, [1]) ∈ applyCalls (c.node Trio.a).upper ∧ (1, [2]) ∈ applyCalls (c.node Trio.b).upper) rfl
  obtain ⟨ha, hb⟩ := of_decide_eq_true hp
  exact ⟨_, c, [1], [2], h, ha, hb, by decide⟩

/-- Between two states the leader of a term moves its commit index over an entry. -/
@[mk_iff]
structure Commits (c c' : Cluster) (l : Bytes) (e : LogEntry) : Prop where
  before : (c.node l).state = .leader
  after : (c'.node l).state = .leader
  term : (c'.node l).currentTerm = (c.node l).currentTerm
  mem : e ∈ (c'.node l).log
  new : (c.node l).commitIndex < e.index
  committed : e.index ≤ (c'.node l).commitIndex

instance (c c' : Cluster) (l : Bytes) (e : LogEntry) : Decidable (Commits c c' l e) :=
  decidable_of_iff' _ (commits_iff c c' l e)

theorem Holds.mem_or_le {log L : List LogEntry} {s k : Nat} {e : LogEntry} (h : Holds log s L)
    (he : L[k]? = some e) : e ∈ log ∨ e.index ≤ s := by
  have hi := h.numbered k e he
  rcases Nat.lt_or_ge k s with hlt | hge
  · exact .inr (by omega)
  · exact .inl (h.mem_iff.mpr (.inr ⟨k, hge, he⟩))

/-- What a leader commits, every leader of a later term holds, now and later. -/
theorem leader_completeness (hnd : peers.Nodup) (hnil : [] ∉ peers) (h : SoundRun peers start acts c)
    (hs : SoundRun peers c [act] c') {l : Bytes} {e : LogEntry} (hc : Commits c c' l e) {c'' : Cluster}
    (h' : SoundRun peers c' acts' c'') {n : Bytes} (hn : (c''.node n).state = .leader)
    (ht : (c'.node l).currentTerm < (c''.node n).currentTerm) :
    e ∈ (c''.node n).log ∨ e.index ≤ (c''.node n).snapshotLastIndex := by
  obtain ⟨a, -, ha⟩ := (Sound.start peers).run hnd hnil (h.append hs)
  obtain ⟨b, hle, hb⟩ := ha.run hnd hnil h'
  have hset := (ha.accounts l).settled
  obtain ⟨hlead, hlog⟩ := hb.leader_log hn
  have hp := (hset.mono ha.mirror.inv hle le_rfl).led (fun _ _ => Majority.inter) hb.mirror.inv hlead ht.le
  rw [← hlog] at hp
  have hnew := hc.new
  have hcommitted : e.index ≤ (c'.procs l).node.commitIndex := hc.committed
  rcases (ha.mirror.node l).log.mem_iff.mp hc.mem with rfl | ⟨k, -, hk⟩
  · exact absurd hnew (Nat.not_lt_zero _)
  · have hi := (ha.mirror.node l).log.numbered k e hk
    have hk' : ((a.log l).take (c'.procs l).node.commitIndex)[k]? = some e := by
      rw [List.getElem?_take_of_lt (by omega), hk]
    exact (hb.mirror.node n).log.mem_or_le (getElem?_of_isPrefix hp hk')

/-- The leader of term 1 commits an entry; the follower that took it over leads term 2. -/
theorem leader_completeness_trio : ∃ c c' c'', Commits c c' Trio.a ⟨1, 1, [1]⟩ ∧
    SoundRun Trio.peers c' (Trio.election Trio.b Trio.c 2 1 1) c'' ∧ (c''.node Trio.b).state = .leader ∧
    (⟨1, 1, [1]⟩ ∈ (c''.node Trio.b).log ∨ 1 ≤ (c''.node Trio.b).snapshotLastIndex) := by
  obtain ⟨c, h, hp⟩ := Runs.exists_run_of_exec (step Trio.peers)
    (fun c act => (noCrash act && sound Trio.peers c act) = true) start
    (Trio.election Trio.a Trio.b 1 0 0 ++ [.propose Trio.a [1]] ++ Trio.heartbeats Trio.a ++
      [.deliver ⟨Trio.a, Trio.b, .appendEntries ⟨1, Trio.a, 0, 0, [⟨1, 1, [1]⟩], 0⟩⟩])
    (fun c => (Runs.exec (step Trio.peers) (fun c act => (noCrash act && sound Trio.peers c act) = true) c
      [.deliver ⟨Trio.b, Trio.a, .appendEntriesResponse ⟨1, true, 1⟩⟩]).any fun c' =>
        (Runs.exec (step Trio.peers) (fun c act => (noCrash act && sound Trio.peers c act) = true) c'
          (Trio.election Trio.b Trio.c 2 1 1)).any fun c'' => Commits c c' Trio.a ⟨1, 1, [1]⟩ ∧
            (c''.node Trio.b).state = .leader ∧ (c'.node Trio.a).currentTerm < (c''.node Trio.b).currentTerm) rfl
  obtain ⟨c', c'', hs, h', hp⟩ := Runs.exists_runs_of_exec _ _ c _ _ _ hp
  obtain ⟨hc, hn, ht⟩ := of_decide_eq_true hp
  exact ⟨c, c', c'', hc, h', hn, leader_completeness (by decide) (by decide) h hs hc h' hn ht⟩

/-- A leader whose snapshot covers its whole log votes for a candidate that has nothing. -/
theorem leader_incomplete : ∃ acts c act c' acts' c'',
    Runs.Run (step Trio.peers) (fun _ act => noCrash act = true) start acts c ∧
    Runs.Run (step Trio.peers) (fun _ act => noCrash act = true) c [act] c' ∧
    Commits c c' Trio.a ⟨1, 1, [1]⟩ ∧
    Runs.Run (step Trio.peers) (fun _ act => noCrash act = true) c' acts' c'' ∧
    (c''.node Trio.c).state = .leader ∧ (c'.node Trio.a).currentTerm < (c''.node Trio.c).currentTerm ∧
    ¬ (⟨1, 1, [1]⟩ ∈ (c''.node Trio.c).log ∨ 1 ≤ (c''.node Trio.c).snapshotLastIndex) := by
  obtain ⟨c, h, hp⟩ := Runs.exists_run_of_exec (step Trio.peers) (fun _ act => noCrash act = true) start
    (Trio.election Trio.a Trio.b 1 0 0 ++ [.propose Trio.a [1]] ++ Trio.heartbeats Trio.a ++
      [.deliver ⟨Trio.a, Trio.c, .appendEntries ⟨1, Trio.a, 0, 0, [], 0⟩⟩,
        .deliver ⟨Trio.a, Trio.b, .appendEntries ⟨1, Trio.a, 0, 0, [⟨1, 1, [1]⟩], 0⟩⟩])
    (fun c => (Runs.exec (step Trio.peers) (fun _ act => noCrash act = true) c
      [.deliver ⟨Trio.b, Trio.a, .appendEntriesResponse ⟨1, true, 1⟩⟩]).any fun c' =>
        (Runs.exec (step Trio.peers) (fun _ act => noCrash act = true) c'
          ([.snapshot Trio.a [7], .snapshot Trio.a [7], .snapshot Trio.a [7]] ++
            Trio.election Trio.c Trio.a 2 0 0)).any fun c'' => Commits c c' Trio.a ⟨1, 1, [1]⟩ ∧
            (c''.node Trio.c).state = .leader ∧ (c'.node Trio.a).currentTerm < (c''.node Trio.c).currentTerm ∧
            ¬ (⟨1, 1, [1]⟩ ∈ (c''.node Trio.c).log ∨ 1 ≤ (c''.node Trio.c).snapshotLastIndex)) rfl
  obtain ⟨c', c'', hs, h', hp⟩ := Runs.exists_runs_of_exec _ _ c _ _ _ hp
  obtain ⟨hc, hn, ht, hlost⟩ := of_decide_eq_true hp
  exact ⟨_, c, _, c', _, c'', h, hs, hc, h', hn, ht, hlost⟩

/-- No request in flight makes its receiver drop an entry it has committed, or fail. -/
theorem Sound.keeps_committed (h : Sound peers a c) {src : Bytes} {req : AppendEntriesRequest}
    (hmem : ⟨src, id, .appendEntries req⟩ ∈ c.net) :
    ∃ n, (c.node id).handleAppendEntries req.leaderId req = some n ∧
      ∀ e ∈ (c.node id).log, e.index ≤ (c.node id).commitIndex → e ∈ n.log := by
  have hm := h.mirror.node id
  obtain ⟨-, ⟨L, hcut, -, -⟩, -⟩ := h.backed _ hmem
  have hpop : ∀ e, (c.node id).getLogEntry req.prevLogIndex = some e →
      (c.node id).snapshotLastIndex ≤ req.prevLogIndex → e.term ≠ req.prevLogTerm →
      ∃ log, RaftNode.popFrom (c.node id).log req.prevLogIndex = some log := by
    intro e he _ hne
    obtain ⟨k, hk, hs, hek⟩ := hm.conflict hcut he hne
    obtain ⟨log, hlog, -⟩ := hm.log.pop hs (List.getElem?_eq_some_iff.mp hek).1.le
    exact ⟨log, hk ▸ hlog⟩
  obtain ⟨n, hn⟩ := RaftNode.exists_handleAppendEntries hpop req.leaderId
  refine ⟨n, hn, fun e he hcommit => ?_⟩
  cases RaftNode.handleAppendEntries_cases hn with
  | stale => exact he
  | reject => exact (RaftNode.catchUp_log _).symm ▸ he
  | accept =>
      rw [RaftNode.acceptEntries_log]
      exact (RaftNode.appendNew_grows _ _).subset ((RaftNode.catchUp_log _).symm ▸ he)
  | truncate hterm hsnap hback f hf hne log hlog =>
      obtain ⟨k, hk, hs, hek, hholds⟩ := hm.truncation hcut hf hne hlog
      obtain ⟨habove, -⟩ := h.truncation_above hmem hterm hk hek hne
      refine hholds.mem_iff.mpr ((hm.log.mem_iff.mp he).imp_right fun ⟨j, hj, hje⟩ => ⟨j, hj, ?_⟩)
      have hi := hm.log.numbered j e hje
      rw [List.getElem?_take_of_lt (by omega), hje]

theorem committed_kept (hnd : peers.Nodup) (hnil : [] ∉ peers) (h : SoundRun peers start acts c) {src dst : Bytes}
    {req : AppendEntriesRequest} (hmem : ⟨src, dst, .appendEntries req⟩ ∈ c.net) :
    ∃ n, (c.node dst).handleAppendEntries req.leaderId req = some n ∧
      ∀ e ∈ (c.node dst).log, e.index ≤ (c.node dst).commitIndex → e ∈ n.log := by
  obtain ⟨a, -, ha⟩ := (Sound.start peers).run hnd hnil h
  exact ha.keeps_committed hmem

/-- A follower that has applied an entry keeps it when the next heartbeat comes. -/
theorem committed_kept_trio : ∃ (c : Cluster) (n : RaftNode), (c.node Trio.b).commitIndex = 1 ∧
    (c.node Trio.b).handleAppendEntries Trio.a ⟨1, Trio.a, 1, 1, [], 1⟩ = some n ∧ ⟨1, 1, [1]⟩ ∈ n.log := by
  obtain ⟨c, h, hp⟩ := Runs.exists_run_of_exec (step Trio.peers)
    (fun c act => (noCrash act && sound Trio.peers c act) = true) start
    (Trio.election Trio.a Trio.b 1 0 0 ++ [.propose Trio.a [1]] ++ Trio.heartbeats Trio.a ++
      Trio.exchange Trio.a Trio.b ⟨1, Trio.a, 0, 0, [⟨1, 1, [1]⟩], 0⟩ 1 ++ Trio.heartbeats Trio.a ++
      Trio.exchange Trio.a Trio.b ⟨1, Trio.a, 1, 1, [], 1⟩ 1 ++ Trio.heartbeats Trio.a)
    (fun c => ⟨Trio.a, Trio.b, .appendEntries ⟨1, Trio.a, 1, 1, [], 1⟩⟩ ∈ c.net ∧
      (c.node Trio.b).commitIndex = 1 ∧ ⟨1, 1, [1]⟩ ∈ (c.node Trio.b).log) rfl
  obtain ⟨hmem, hcommit, he⟩ := of_decide_eq_true hp
  obtain ⟨n, hn, hkept⟩ := committed_kept (by decide) (by decide) h hmem
  exact ⟨c, n, hcommit, hn, hkept _ he hcommit.ge⟩

/-- A leader with a snapshot at 2 asks a follower that has committed 1 to build on an entry 1 of term 0. -/
theorem committed_truncated :
    ∃ acts c req n, Runs.Run (step Trio.peers) (fun _ act => noCrash act = true) start acts c ∧
    ⟨Trio.a, Trio.c, .appendEntries req⟩ ∈ c.net ∧
    (c.node Trio.c).handleAppendEntries req.leaderId req = some n ∧
    ∃ e ∈ (c.node Trio.c).log, e.index ≤ (c.node Trio.c).commitIndex ∧ e ∉ n.log := by
  obtain ⟨c, h, hp⟩ := Runs.exists_run_of_exec (step Trio.peers) (fun _ act => noCrash act = true) start
    (Trio.election Trio.a Trio.b 1 0 0 ++ [.propose Trio.a [1]] ++ Trio.heartbeats Trio.a ++
      Trio.exchange Trio.a Trio.b ⟨1, Trio.a, 0, 0, [⟨1, 1, [1]⟩], 0⟩ 1 ++
      Trio.exchange Trio.a Trio.c ⟨1, Trio.a, 0, 0, [⟨1, 1, [1]⟩], 0⟩ 1 ++
      [.propose Trio.a [2]] ++ Trio.heartbeats Trio.a ++
      Trio.exchange Trio.a Trio.b ⟨1, Trio.a, 1, 1, [⟨1, 2, [2]⟩], 1⟩ 2 ++
      [.deliver ⟨Trio.a, Trio.c, .appendEntries ⟨1, Trio.a, 1, 1, [⟨1, 2, [2]⟩], 1⟩⟩] ++
      [.snapshot Trio.a [7], .snapshot Trio.a [7], .snapshot Trio.a [7]] ++ Trio.heartbeats Trio.a)
    (fun c => ⟨Trio.a, Trio.c, .appendEntries ⟨1, Trio.a, 1, 0, [], 2⟩⟩ ∈ c.net ∧
      ((c.node Trio.c).handleAppendEntries Trio.a ⟨1, Trio.a, 1, 0, [], 2⟩).any fun n =>
        ⟨1, 1, [1]⟩ ∈ (c.node Trio.c).log ∧ 1 ≤ (c.node Trio.c).commitIndex ∧ ⟨1, 1, [1]⟩ ∉ n.log) rfl
  obtain ⟨hmem, hp⟩ := of_decide_eq_true hp
  obtain ⟨n, hn, hp⟩ := (Option.any_eq_true _ _).mp hp
  obtain ⟨he, hcommit, hlost⟩ := of_decide_eq_true hp
  exact ⟨_, c, _, n, h, hmem, hn, _, he, hcommit, hlost⟩

end MiniStorage.Raft
