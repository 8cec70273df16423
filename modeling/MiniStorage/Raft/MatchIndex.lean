import MiniStorage.Raft.Safety

namespace MiniStorage.Raft

open Replication

variable {peers : List Bytes} {a : Ghost} {c c' : Cluster} {id : Bytes} {p' : Process} {net' : List Packet}
  {act : Action} {acts : List Action} {n m : RaftNode}

/-- A leader's log ends no earlier than its match index says of anyone. -/
def LastCovers (cfg : RaftConfig) (n : RaftNode) : Prop :=
  n.state = .leader → ∀ q ∈ cfg.others, ∀ m, n.matchIndex q = some m → m ≤ (back n.log).index

theorem LastCovers.of_ne {cfg : RaftConfig} (h : n.state ≠ .leader) : LastCovers cfg n := fun hl => absurd hl h

theorem LastCovers.keeps {cfg : RaftConfig} (h : LastCovers cfg n) (hk : Keeps n m) : LastCovers cfg m := by
  intro hl q hq i hi
  obtain ⟨hstate, -, -, hmatch⟩ := hk.leader hl
  rw [hmatch] at hi
  rw [hk.log]
  exact h hstate q hq i hi

theorem LastCovers.becomeLeader (cfg : RaftConfig) (n : RaftNode) : LastCovers cfg (n.becomeLeader cfg) := by
  rw [RaftNode.becomeLeader_eq]
  intro _ q hq m hm
  dsimp only at hm
  rw [if_pos hq] at hm
  exact (Option.some.inj hm).ge.trans (Nat.zero_le _)

theorem LastCovers.propose (h : LastCovers ⟨id, peers⟩ n) (hl : n.state = .leader) (command : Bytes) :
    LastCovers ⟨id, peers⟩ (n.propose ⟨id, peers⟩ command).1 := by
  intro _ q hq m hm
  have hne : q ≠ id := by simpa using (List.mem_filter.mp hq).2
  have hm : n.matchIndex q = some m := by simpa [RaftNode.propose, RaftNode.persistState, hne] using hm
  have hback : (back (n.propose ⟨id, peers⟩ command).1.log).index = (back n.log).index + 1 := by
    simp [RaftNode.propose, RaftNode.persistState, back]
  rw [hback]
  exact (h hl q hq m hm).trans (Nat.le_succ _)

theorem Sound.trim_covers (h : Sound peers a c) (hc : LastCovers ⟨id, peers⟩ (c.node id)) {snap : SnapshotMetadata}
    (hsnap : (c.procs id).snapshot = some ⟨snap, true⟩) {data : Bytes}
    (hk : keepsLast peers c (.snapshot id data) = true) : LastCovers ⟨id, peers⟩ ((c.node id).trimSnapshot snap) := by
  intro hl q hq m hm
  have hm : (c.node id).matchIndex q = some m := hm
  have hle := hc hl q hq m hm
  obtain ⟨h1, h2, -⟩ := (h.accounts id).pending _ hsnap
  have hlog := (h.mirror.node id).log
  have hk' := hk
  rw [keepsLast, hsnap] at hk'
  have hk := of_decide_eq_true hk' hl
  rw [Bool.or_eq_true, decide_eq_true_eq, List.all_eq_true] at hk
  rcases hk with hlt | hzero
  · have hlt := hlt.trans_le hlog.back_le
    have htrim := hlog.trim h1 hlt.le
    show m ≤ (back (RaftNode.trimLog (c.node id).log snap.lastIncludedIndex)).index
    rw [(htrim.back_of_lt hlt).2]
    exact hle.trans hlog.back_le
  · have := hzero q hq
    rw [hm] at this
    have hm0 : m = 0 := by simpa using this
    exact hm0.trans_le (Nat.zero_le _)

theorem Sound.matched_covers (h : Sound peers a c) {src : Bytes} {resp : AppendEntriesResponse}
    (hmem : ⟨src, id, .appendEntriesResponse resp⟩ ∈ c.net)
    (hcount : countsOwnTerm c (.deliver ⟨src, id, .appendEntriesResponse resp⟩) = true)
    (hk : keepsLast peers c (.deliver ⟨src, id, .appendEntriesResponse resp⟩) = true)
    (hc : LastCovers ⟨id, peers⟩ (c.node id)) (ht : resp.term ≤ (c.node id).currentTerm)
    (hstate : (c.node id).state = .leader) (hok : resp.success = true) :
    LastCovers ⟨id, peers⟩ ({ c.node id with
      matchIndex := Function.update (c.node id).matchIndex src (some resp.matchIndex)
      nextIndex := Function.update (c.node id).nextIndex src (some (resp.matchIndex + 1)) }.advanceCommitIndex
        ⟨id, peers⟩) := by
  obtain ⟨-, hlen⟩ := h.matched_le hmem hcount hstate hok ht
  have hback : (c.node id).snapshotLastIndex ≤ (back (c.node id).log).index :=
    of_decide_eq_true hk (by rw [hok, hstate]; rfl)
  obtain ⟨i, j, u, he⟩ := RaftNode.advanceCommitIndex_shape ⟨id, peers⟩ { c.node id with
    matchIndex := Function.update (c.node id).matchIndex src (some resp.matchIndex)
    nextIndex := Function.update (c.node id).nextIndex src (some (resp.matchIndex + 1)) }
  rw [he]
  intro hl q hq m hm
  by_cases hqs : q = src
  · subst q
    have hm : resp.matchIndex = m := by simpa using hm
    exact hm ▸ hlen.trans ((h.mirror.node id).log.back_index hback).ge
  · have hm : (c.node id).matchIndex q = some m := by simpa [hqs] using hm
    exact hc hl q hq m hm

theorem ProcStep.lastCovers (hp : ProcStep peers id (c.procs id) c.net act p' net') (h : Sound peers a c)
    (hcrash : noCrash act = true) (hcount : countsOwnTerm c act = true) (hk : keepsLast peers c act = true)
    (hc : LastCovers ⟨id, peers⟩ (c.node id)) : LastCovers ⟨id, peers⟩ p'.node := by
  cases hp with
  | timer =>
      cases htimer : (c.procs id).timer with
      | idle | election | tally => simp only [Process.timerStep, htimer]; exact hc
      | heartbeats => simp only [Process.timerStep, htimer]; exact hc.keeps (.sendHeartbeats _ _)
      | candidacy => simp only [Process.timerStep, htimer]; exact hc.keeps (.becomeCandidate _ _)
      | leadership => simp only [Process.timerStep, htimer]; exact .becomeLeader _ _
  | heartbeat | refuse | wait | capture | write | lose | installSnapshotResponse => exact hc
  | propose command hid hfree hstate => exact hc.propose hstate command
  | advance =>
      obtain ⟨i, j, u, he⟩ := RaftNode.advanceCommitIndex_shape ⟨id, peers⟩ (c.procs id).node
      simp only [he]
      exact hc
  | send => exact hc.keeps (.sendHeartbeats _ _)
  | trim data hfree snap hsnap => exact h.trim_covers hc hsnap hk
  | requestVote => exact hc.keeps (.handleRequestVote _ _)
  | requestVoteResponse src resp =>
      rcases Keeps.handleRequestVoteResponse ⟨id, peers⟩ (c.procs id).node resp with hk | ⟨votes, hn⟩
      · exact hc.keeps hk
      · dsimp only
        rw [hn]
        exact .becomeLeader _ _
  | appendEntries src req hmem hid hfree n hn =>
      cases RaftNode.handleAppendEntries_cases hn with
      | stale => exact hc
      | reject | truncate => exact .of_ne (by rintro ⟨⟩)
      | accept =>
          have hstate := RaftNode.acceptEntries_field RaftNode.state (fun _ _ _ _ _ => rfl)
            ((c.procs id).node.follow req.leaderId req.term) req
          exact .of_ne (by dsimp only; rw [hstate]; rintro ⟨⟩)
  | appendEntriesResponse src resp hmem hid =>
      have ho := RaftNode.handleAppendEntriesResponse_cases ⟨id, peers⟩ (c.procs id).node src resp
      generalize (c.procs id).node.handleAppendEntriesResponse ⟨id, peers⟩ src resp = r at ho ⊢
      cases ho with
      | adopt ht => exact hc.keeps (.adoptTerm ht)
      | ignore | retry => exact hc
      | matched ht hstate hok => exact h.matched_covers hmem hcount hk hc ht hstate hok
  | installSnapshot src req hmem => exact absurd rfl (h.mirror.no_install _ hmem req)
  | restart | crashHandling => cases hcrash

/-- What a leader believes to be stored at a follower is in its own log and at the
follower, until the follower moves on to a later term. -/
def MatchIndexSound (peers : List Bytes) (c : Cluster) : Prop :=
  ∀ l, (c.node l).state = .leader → ∀ q ∈ (RaftConfig.mk l peers).others, ∀ m, (c.node l).matchIndex q = some m →
    m ≤ (back (c.node l).log).index ∧ ((c.node q).currentTerm ≤ (c.node l).currentTerm →
      ∀ e ∈ (c.node l).log, e.index ≤ m → e ∈ (c.node q).log ∨ e.index ≤ (c.node q).snapshotLastIndex)

/-- What a node has acknowledged to a leader stays until a later leader comes. -/
theorem Sound.acknowledged (h : Sound peers a c) {q : Bytes} {t m : Nat} (hm : m ≤ a.ack q t)
    (ht : (c.node q).currentTerm ≤ t) : (a.llog t).take m <+: a.log q := by
  rcases h.mirror.inv.kept.kept q t m hm with hp | ⟨w, hw, hwq, -⟩
  · exact hp
  · rw [(h.mirror.node q).term] at hwq
    omega

theorem Sound.matchIndexSound (h : Sound peers a c) (hc : ∀ id, LastCovers ⟨id, peers⟩ (c.node id)) :
    MatchIndexSound peers c := by
  intro l hl q hq m hm
  refine ⟨hc l hl q hq m hm, fun ht e he hi => ?_⟩
  have hp := h.acknowledged ((h.accounts l).matched hl q hq m hm) ht
  have hlog := (h.mirror.node l).log
  rcases hlog.mem_iff.mp he with rfl | ⟨k, -, hk⟩
  · exact .inr (Nat.zero_le _)
  · have hke := hlog.numbered k e hk
    rw [(h.leader_log hl).2] at hk
    refine (h.mirror.node q).log.mem_or_le (getElem?_of_isPrefix hp (k := k) ?_)
    rw [List.getElem?_take_of_lt (by omega)]
    exact hk

/-- Runs of sound steps in which no snapshot empties the log of a leader that counts on it. -/
abbrev KeepingRun (peers : List Bytes) : Cluster → List Action → Cluster → Prop :=
  Runs.Run (step peers) fun c act => (noCrash act && sound peers c act && keepsLast peers c act) = true

theorem match_index_sound (hnd : peers.Nodup) (hnil : [] ∉ peers) (h : KeepingRun peers start acts c) :
    MatchIndexSound peers c := by
  suffices hi : ∃ a, Sound peers a c ∧ ∀ id, LastCovers ⟨id, peers⟩ (c.node id) by
    obtain ⟨a, ha, hc⟩ := hi
    exact ha.matchIndexSound hc
  refine Runs.Run.invariant (I := fun c => ∃ a, Sound peers a c ∧ ∀ id, LastCovers ⟨id, peers⟩ (c.node id))
    (fun c act c' hi hg hs => ?_) ⟨_, .start peers, fun _ => nofun⟩ h
  obtain ⟨a, ha, hc⟩ := hi
  obtain ⟨id, p', net', rfl, hp⟩ := step_cases hs
  simp only [Bool.and_eq_true] at hg
  obtain ⟨⟨hcrash, hsound⟩, hk⟩ := hg
  have hcount : countsOwnTerm c act = true := by
    simp only [sound, Bool.and_eq_true] at hsound
    exact hsound.1.1.1.1.1.2
  obtain ⟨b, -, hb⟩ := ha.step hnd hnil hcrash hsound hp
  exact ⟨b, hb, put_cases (P := fun w p => LastCovers ⟨w, peers⟩ p.node) c net'
    (hp.lastCovers ha hcrash hcount hk (hc id)) fun w _ => hc w⟩

/-- A leader that has heard back from both followers. -/
theorem match_index_sound_trio : ∃ c : Cluster, (c.node Trio.a).matchIndex Trio.b = some 2 ∧
    (c.node Trio.a).matchIndex Trio.c = some 1 ∧ MatchIndexSound Trio.peers c := by
  obtain ⟨c, h, hp⟩ := Runs.exists_run_of_exec (step Trio.peers)
    (fun c act => (noCrash act && sound Trio.peers c act && keepsLast Trio.peers c act) = true) start
    (Trio.election Trio.a Trio.b 1 0 0 ++ [.propose Trio.a [1]] ++ Trio.heartbeats Trio.a ++
      Trio.exchange Trio.a Trio.b ⟨1, Trio.a, 0, 0, [⟨1, 1, [1]⟩], 0⟩ 1 ++
      Trio.exchange Trio.a Trio.c ⟨1, Trio.a, 0, 0, [⟨1, 1, [1]⟩], 0⟩ 1 ++
      [.propose Trio.a [2]] ++ Trio.heartbeats Trio.a ++
      Trio.exchange Trio.a Trio.b ⟨1, Trio.a, 1, 1, [⟨1, 2, [2]⟩], 1⟩ 2 ++
      [.snapshot Trio.a [7], .snapshot Trio.a [7]])
    (fun c => (c.node Trio.a).matchIndex Trio.b = some 2 ∧ (c.node Trio.a).matchIndex Trio.c = some 1) rfl
  obtain ⟨hb, hc⟩ := of_decide_eq_true hp
  exact ⟨c, hb, hc, match_index_sound (by decide) (by decide) h⟩

/-- A deposed leader answers a heartbeat without entries with the end of its own log. -/
theorem match_index_unsound : ∃ acts c, Runs.Run (step Trio.peers) (fun _ act => noCrash act = true) start acts c ∧
    ¬ MatchIndexSound Trio.peers c := by
  obtain ⟨c, h, hp⟩ := Runs.exists_run_of_exec (step Trio.peers) (fun _ act => noCrash act = true) start
    (Trio.election Trio.a Trio.b 1 0 0 ++ [.propose Trio.a [1]] ++ Trio.election Trio.b Trio.c 2 0 0 ++
      Trio.exchange Trio.b Trio.a ⟨2, Trio.b, 0, 0, [], 0⟩ 1)
    (fun c => (c.node Trio.b).state = .leader ∧ (c.node Trio.b).matchIndex Trio.a = some 1 ∧
      (back (c.node Trio.b).log).index = 0) rfl
  obtain ⟨hl, hm, hback⟩ := of_decide_eq_true hp
  refine ⟨_, c, h, fun hs => ?_⟩
  obtain ⟨hle, -⟩ := hs Trio.b hl Trio.a (by decide) 1 hm
  omega

end MiniStorage.Raft
