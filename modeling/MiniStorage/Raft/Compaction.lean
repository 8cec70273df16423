import MiniStorage.Raft.Lone
import Mathlib.Data.List.Sort

namespace MiniStorage.Raft

open RaftNode

variable {peers : List Bytes} {id : Bytes} {p : Process} {acts : List Action} {n : RaftNode} {log : List LogEntry}

namespace RaftNode

/-- The term and the index of the last entry a node has stored and not truncated; where a snapshot has left nothing
but the sentinel these are the snapshot's. -/
def lastStored (n : RaftNode) : Nat × Nat :=
  if n.log.tail = [] then (n.snapshotLastTerm, n.snapshotLastIndex) else ((back n.log).term, (back n.log).index)

/-- The candidate's log is at least as new as what ends with this term and index. -/
def AtLeast (req : RequestVoteRequest) (last : Nat × Nat) : Prop :=
  last.1 < req.lastLogTerm ∨ req.lastLogTerm = last.1 ∧ last.2 ≤ req.lastLogIndex

instance (req : RequestVoteRequest) (last : Nat × Nat) : Decidable (AtLeast req last) :=
  inferInstanceAs (Decidable (_ ∨ _))

/-- The node has a vote for the candidate, whatever their logs. -/
def MayVote (n : RaftNode) (req : RequestVoteRequest) : Prop :=
  n.currentTerm < req.term ∨ n.currentTerm = req.term ∧ (n.votedFor = [] ∨ n.votedFor = req.candidateId)

theorem voteGranted_iff (n : RaftNode) (req : RequestVoteRequest) : (n.handleRequestVote req).2.voteGranted = true ↔
    n.MayVote req ∧ AtLeast req ((back n.log).term, (back n.log).index) := by
  have hvote : (n.catchUp req.term).canVote req = true ↔
      ((n.catchUp req.term).votedFor = [] ∨ (n.catchUp req.term).votedFor = req.candidateId) ∧
        AtLeast req ((back n.log).term, (back n.log).index) := by
    rw [canVote, catchUp_log, decide_eq_true_eq]
    rfl
  rw [handleRequestVote, MayVote]
  rcases Nat.lt_trichotomy n.currentTerm req.term with hlt | heq | hgt
  · rw [if_neg (by omega)]
    rw [catchUp_of_lt hlt] at hvote ⊢
    have hfree : (n.adoptTerm req.term).votedFor = [] := rfl
    simp only [hfree, true_or, true_and] at hvote
    simp only [hlt, true_or, true_and, ← hvote]
    split
    · next h => simp [h]
    · next h => simp [h]
  · rw [if_neg (by omega)]
    rw [catchUp_of_le heq.ge] at hvote ⊢
    simp only [heq, Nat.lt_irrefl, false_or, true_and, ← hvote]
    split
    · next h => simp [h]
    · next h => simp [h]
  · rw [if_pos hgt]
    simp only [Bool.false_eq_true, false_iff, not_and]
    omega

end RaftNode

theorem back_nil_tail (h : log = {} :: log.tail) (ht : log.tail = []) : back log = {} := by
  rw [h, ht]
  rfl

/-- A vote does not go to an older log, but where the log is compacted down to the sentinel and the candidate is
behind the snapshot. -/
theorem vote_restriction_iff (hr : Runs.Run (loneStep peers id) (fun _ _ => True) fresh acts p)
    (req : RequestVoteRequest) :
    ((p.node.handleRequestVote req).2.voteGranted = true → AtLeast req p.node.lastStored) ↔
      p.node.log.tail ≠ [] ∨ ¬ p.node.MayVote req ∨
        AtLeast req (p.node.snapshotLastTerm, p.node.snapshotLastIndex) := by
  have hstand : Standing ⟨id, peers⟩ p := Standing.run .fresh hr
  rw [voteGranted_iff, lastStored]
  by_cases ht : p.node.log.tail = []
  · rw [if_pos ht, back_nil_tail hstand.intact.sentinel ht]
    have hany : AtLeast req ((({} : LogEntry).term), ({} : LogEntry).index) := by
      rw [AtLeast]
      rcases Nat.eq_zero_or_pos req.lastLogTerm with h0 | hpos
      · exact .inr ⟨h0, Nat.zero_le _⟩
      · exact .inl hpos
    constructor
    · intro h
      by_cases hmay : p.node.MayVote req
      · exact .inr (.inr (h ⟨hmay, hany⟩))
      · exact .inr (.inl hmay)
    · rintro (hne | hmay | hok) ⟨hv, -⟩
      · exact absurd ht hne
      · exact absurd hv hmay
      · exact hok
  · rw [if_neg ht]
    exact iff_of_true (fun h => h.2) (.inl ht)

/-- A follower takes over the first entry of term 1, and hears that it is committed. -/
def firstEntry : List Action :=
  [.deliver ⟨Trio.b, Trio.a, .appendEntries ⟨1, Trio.b, 0, 0, [⟨1, 1, [1]⟩], 0⟩⟩,
    .deliver ⟨Trio.b, Trio.a, .appendEntries ⟨1, Trio.b, 1, 1, [], 1⟩⟩]

def takeSnapshot (id : Bytes) : List Action := [.snapshot id [2], .snapshot id [2], .snapshot id [2]]

theorem vote_restriction_uncompacted : ∃ acts p, Runs.Run (loneStep Trio.peers Trio.a) (fun _ _ => True) fresh acts p ∧
    p.node.lastStored = (1, 1) ∧ ∀ req, (p.node.handleRequestVote req).2.voteGranted = true → AtLeast req (1, 1) := by
  obtain ⟨p, hr, hp⟩ := Runs.exists_run_of_exec (loneStep Trio.peers Trio.a) (fun _ _ => True) fresh firstEntry
    (fun p => p.node.log.tail ≠ [] && p.node.lastStored = (1, 1)) (by decide)
  rw [Bool.and_eq_true, decide_eq_true_eq, decide_eq_true_eq] at hp
  refine ⟨_, p, hr, hp.2, fun req => ?_⟩
  have hv := (vote_restriction_iff hr req).mpr (.inl hp.1)
  rwa [hp.2] at hv

/-- A follower that has compacted a committed entry away votes for a candidate without it. -/
theorem vote_for_older_log : ∃ acts p, Runs.Run (loneStep Trio.peers Trio.a) (fun _ _ => True) fresh acts p ∧
    p.node.commitIndex = 1 ∧ (p.node.handleRequestVote ⟨2, Trio.c, 0, 0⟩).2.voteGranted = true ∧
      ¬ AtLeast ⟨2, Trio.c, 0, 0⟩ p.node.lastStored := by
  obtain ⟨p, hr, hp⟩ := Runs.exists_run_of_exec (loneStep Trio.peers Trio.a) (fun _ _ => True) fresh
    (firstEntry ++ takeSnapshot Trio.a)
    (fun p => p.node.commitIndex = 1 && ((p.node.handleRequestVote ⟨2, Trio.c, 0, 0⟩).2.voteGranted &&
      !decide (AtLeast ⟨2, Trio.c, 0, 0⟩ p.node.lastStored))) (by decide)
  rw [Bool.and_eq_true, Bool.and_eq_true, Bool.not_eq_true', decide_eq_true_eq, decide_eq_false_iff_not] at hp
  exact ⟨_, p, hr, hp⟩

/-- The previous entry of a request has this term in the log or as the snapshot's, and the entries are all that the
log is said to hold behind it. -/
structure Honest (n : RaftNode) (req : AppendEntriesRequest) : Prop where
  prev : (∃ e ∈ n.log, e.index = req.prevLogIndex ∧ e.term = req.prevLogTerm) ∨
    req.prevLogIndex = n.snapshotLastIndex ∧ req.prevLogTerm = n.snapshotLastTerm
  entries : (∀ e ∈ req.entries, e ∈ n.log) ∧ req.entries.map (·.index) =
    List.range' (req.prevLogIndex + 1) ((back n.log).index - req.prevLogIndex)

/-- The term of a previous entry is known: it is the snapshot's last, or in the log behind the snapshot, or of term 0
as that of the sentinel. -/
def KnowsPrev (n : RaftNode) (prev : Nat) : Prop :=
  prev = n.snapshotLastIndex ∨ ∃ e ∈ n.log, e.index = prev ∧ (n.snapshotLastIndex < prev ∨ e.term = 0)

/-- The log has every index behind a position. -/
def Reaching (log : List LogEntry) (prev : Nat) : Prop := ∀ i, prev < i → i ≤ (back log).index → ∃ e ∈ log, e.index = i

theorem Sorted.gapless_iff (h : Sorted log) (prev : Nat) : (log.filter (prev + 1 ≤ ·.index)).map (·.index) =
    List.range' (prev + 1) ((back log).index - prev) ↔ Reaching log prev := by
  have hmem (i : Nat) : i ∈ (log.filter (prev + 1 ≤ ·.index)).map (·.index) ↔ prev < i ∧ ∃ e ∈ log, e.index = i := by
    simp only [List.mem_map, List.mem_filter, decide_eq_true_eq, Nat.succ_le_iff]
    constructor
    · rintro ⟨e, ⟨he, hlt⟩, rfl⟩
      exact ⟨hlt, e, he, rfl⟩
    · rintro ⟨hlt, e, he, rfl⟩
      exact ⟨e, ⟨he, hlt⟩, rfl⟩
  have hrange (i : Nat) : i ∈ List.range' (prev + 1) ((back log).index - prev) ↔ prev < i ∧ i ≤ (back log).index := by
    rw [List.mem_range'_1]
    omega
  constructor
  · intro heq i hlt hle
    have hi := (hrange i).mpr ⟨hlt, hle⟩
    rw [← heq, hmem] at hi
    exact hi.2
  · intro hg
    have hfilter : ((log.filter (prev + 1 ≤ ·.index)).map (·.index)).Pairwise (· < ·) :=
      List.pairwise_map.mpr (h.sublist List.filter_sublist)
    refine hfilter.eq_of_mem_iff List.pairwise_lt_range' fun i => ?_
    rw [hmem, hrange]
    constructor
    · rintro ⟨hlt, e, he, rfl⟩
      exact ⟨hlt, h.le_back he⟩
    · rintro ⟨hlt, hle⟩
      exact ⟨hlt, hg i hlt hle⟩

theorem Sorted.prevLogTerm_iff (h : Sorted n.log) (prev : Nat) :
    ((∃ e ∈ n.log, e.index = prev ∧ e.term = n.prevLogTerm prev) ∨
      prev = n.snapshotLastIndex ∧ n.prevLogTerm prev = n.snapshotLastTerm) ↔ KnowsPrev n prev := by
  rw [RaftNode.prevLogTerm, KnowsPrev]
  rcases Nat.lt_trichotomy prev n.snapshotLastIndex with hlt | heq | hgt
  · rw [if_neg (by omega), if_neg hlt.ne]
    simp only [hlt.ne, false_and, or_false, false_or, Nat.not_lt.mpr hlt.le]
  · exact iff_of_true (.inr ⟨heq, by rw [if_neg (by omega), if_pos heq]⟩) (.inl heq)
  · rw [if_pos hgt]
    simp only [hgt.ne', false_and, or_false, false_or, hgt, true_or, and_true]
    constructor
    · rintro ⟨e, he, hindex, -⟩
      exact ⟨e, he, hindex⟩
    · rintro ⟨e, he, rfl⟩
      have hfind : n.getLogEntry e.index = some e := h.find_eq he
      exact ⟨e, he, rfl, by rw [hfind]; rfl⟩

/-- The request a leader builds for a peer is truthful exactly if it knows the term of the previous entry and its log
has no gap behind that. -/
theorem heartbeat_truthful_iff (hr : Runs.Run (loneStep peers id) (fun _ _ => True) fresh acts p)
    (hlead : p.node.state = .leader) {peer : Bytes} (hpeer : peer ∈ (RaftConfig.mk id peers).others) :
    Honest p.node (p.node.heartbeatRequest ⟨id, peers⟩ peer) ↔ ∃ prev, p.node.nextIndex peer = some (prev + 1) ∧
      KnowsPrev p.node prev ∧ Reaching p.node.log prev := by
  have hstand : Standing ⟨id, peers⟩ p := Standing.run .fresh hr
  obtain ⟨prev, hnext⟩ := hstand.stocked.leader hlead peer hpeer
  have hsub : ∀ e ∈ p.node.log.filter (prev + 1 ≤ ·.index), e ∈ p.node.log := fun e he => (List.mem_filter.mp he).1
  have hiff : Honest p.node (p.node.heartbeatRequest ⟨id, peers⟩ peer) ↔
      KnowsPrev p.node prev ∧ Reaching p.node.log prev := by
    rw [heartbeatRequest_eq _ hnext, ← hstand.sorted.prevLogTerm_iff, ← hstand.sorted.gapless_iff]
    exact ⟨fun h => ⟨h.prev, h.entries.2⟩, fun h => ⟨h.1, hsub, h.2⟩⟩
  rw [hiff, hnext]
  simp

/-- A leader of three, with the vote of one. -/
def win : List Action :=
  [.timer Trio.a, .timer Trio.a, .timer Trio.a, .timer Trio.a,
    .deliver ⟨Trio.b, Trio.a, .requestVoteResponse ⟨1, true⟩⟩, .heartbeat Trio.a, .heartbeat Trio.a]

/-- Its first command, sent to both. -/
def firstCommand : List Action :=
  [.propose Trio.a [1], .proposeNext Trio.a 0 false, .proposeNext Trio.a 0 false, .heartbeat Trio.a, .heartbeat Trio.a]

theorem heartbeat_truthful_first : ∃ acts p, Runs.Run (loneStep Trio.peers Trio.a) (fun _ _ => True) fresh acts p ∧
    p.node.log = [{}, ⟨1, 1, [1]⟩] ∧ Honest p.node (p.node.heartbeatRequest ⟨Trio.a, Trio.peers⟩ Trio.c) := by
  obtain ⟨p, hr, hp⟩ := Runs.exists_run_of_exec (loneStep Trio.peers Trio.a) (fun _ _ => True) fresh
    (win ++ firstCommand) (fun p => p.node.state = .leader && (p.node.nextIndex Trio.c = some 1 &&
      (p.node.log = [{}, ⟨1, 1, [1]⟩] && p.node.snapshotLastIndex = 0))) (by decide)
  simp only [Bool.and_eq_true, decide_eq_true_eq] at hp
  obtain ⟨hlead, hnext, hlog, hsnap⟩ := hp
  refine ⟨_, p, hr, hlog, (heartbeat_truthful_iff hr hlead (by decide)).mpr ⟨0, hnext, .inl hsnap.symm, ?_⟩⟩
  intro i hlt hle
  rw [hlog] at hle ⊢
  have hone : 1 = i := le_antisymm hlt hle
  exact ⟨⟨1, 1, [1]⟩, by simp, hone⟩

/-- A snapshot leaves a follower's next index behind: the request it gets claims to follow the sentinel and lacks the
entry that the snapshot has covered. -/
theorem heartbeat_skips_entry : ∃ acts p, Runs.Run (loneStep Trio.peers Trio.a) (fun _ _ => True) fresh acts p ∧
    p.node.state = .leader ∧ (p.node.heartbeatRequest ⟨Trio.a, Trio.peers⟩ Trio.c).prevLogIndex = 0 ∧
      (p.node.heartbeatRequest ⟨Trio.a, Trio.peers⟩ Trio.c).entries = [⟨1, 2, [2]⟩] ∧
      ¬ Honest p.node (p.node.heartbeatRequest ⟨Trio.a, Trio.peers⟩ Trio.c) := by
  obtain ⟨p, hr, hp⟩ := Runs.exists_run_of_exec (loneStep Trio.peers Trio.a) (fun _ _ => True) fresh
    (win ++ firstCommand ++ [.deliver ⟨Trio.b, Trio.a, .appendEntriesResponse ⟨1, true, 1⟩⟩, .snapshot Trio.a [3],
      .propose Trio.a [2], .snapshot Trio.a [3], .snapshot Trio.a [3]])
    (fun p => p.node.state = .leader && ((p.node.heartbeatRequest ⟨Trio.a, Trio.peers⟩ Trio.c).prevLogIndex = 0 &&
      ((p.node.heartbeatRequest ⟨Trio.a, Trio.peers⟩ Trio.c).entries = [⟨1, 2, [2]⟩] &&
        (back p.node.log).index = 2))) (by decide)
  simp only [Bool.and_eq_true, decide_eq_true_eq] at hp
  obtain ⟨hlead, hprev, hentries, hback⟩ := hp
  refine ⟨_, p, hr, hlead, hprev, hentries, fun h => ?_⟩
  have heq := h.entries.2
  rw [hprev, hentries, hback] at heq
  cases heq

/-- A snapshot that a follower says it has is committed and applied by it, unless the index is past what is committed
and no greater than the term of the follower's own snapshot. -/
theorem install_covers_iff (hr : Runs.Run (loneStep peers id) (fun _ _ => True) fresh acts p)
    (leader : Bytes) (req : InstallSnapshotRequest) (hterm : p.node.currentTerm ≤ req.term) :
    ((p.node.handleInstallSnapshot leader req).2.success = true →
      req.lastIncludedIndex ≤ (p.node.handleInstallSnapshot leader req).1.commitIndex ∧
        req.lastIncludedIndex ≤ (p.node.handleInstallSnapshot leader req).1.lastApplied) ↔
      req.lastIncludedIndex ≤ p.node.commitIndex ∨ p.node.snapshotLastTerm < req.lastIncludedIndex := by
  have hstand : Standing ⟨id, peers⟩ p := Standing.run .fresh hr
  have happlied := hstand.counted.applied
  have ho := handleInstallSnapshot_cases p.node leader req
  generalize p.node.handleInstallSnapshot leader req = r at ho ⊢
  cases ho with
  | stale hlt => omega
  | skip hle hold =>
      have hcommit : (p.node.follow leader req.term).commitIndex = p.node.commitIndex := catchUp_commitIndex _
      have hsame : (p.node.follow leader req.term).lastApplied = p.node.lastApplied := catchUp_lastApplied _
      simp only [hcommit, hsame, happlied, true_imp_iff, and_self]
      omega
  | install hle hsnap hcommit => exact iff_of_true (fun _ => ⟨le_rfl, le_rfl⟩) (.inr hsnap)

theorem install_covers_five : ∃ acts p, Runs.Run (loneStep Trio.peers Trio.a) (fun _ _ => True) fresh acts p ∧
    5 ≤ (p.node.handleInstallSnapshot Trio.b ⟨1, Trio.b, 5, 1, []⟩).1.lastApplied := by
  obtain ⟨p, hr, hp⟩ := Runs.exists_run_of_exec (loneStep Trio.peers Trio.a) (fun _ _ => True) fresh firstEntry
    (fun p => p.node.currentTerm = 1 && (p.node.snapshotLastTerm = 0 &&
      (p.node.handleInstallSnapshot Trio.b ⟨1, Trio.b, 5, 1, []⟩).2.success)) (by decide)
  simp only [Bool.and_eq_true, decide_eq_true_eq] at hp
  obtain ⟨hterm, hsnap, hok⟩ := hp
  have hcover := (install_covers_iff hr Trio.b ⟨1, Trio.b, 5, 1, []⟩ hterm.le).mpr (.inr (by rw [hsnap]; decide))
  exact ⟨_, p, hr, (hcover hok).2⟩

/-- A follower with a snapshot of term 5 acknowledges one up to index 3 without taking it. -/
theorem install_acknowledged_unread : ∃ acts p, Runs.Run (loneStep Trio.peers Trio.a) (fun _ _ => True) fresh acts p ∧
    p.node.state = .follower ∧ p.node.currentTerm = 5 ∧
      (p.node.handleInstallSnapshot Trio.b ⟨5, Trio.b, 3, 5, [9]⟩).2.success = true ∧
      (p.node.handleInstallSnapshot Trio.b ⟨5, Trio.b, 3, 5, [9]⟩).1.commitIndex = 1 := by
  obtain ⟨p, hr, hp⟩ := Runs.exists_run_of_exec (loneStep Trio.peers Trio.a) (fun _ _ => True) fresh
    ([.deliver ⟨Trio.b, Trio.a, .appendEntries ⟨5, Trio.b, 0, 0, [⟨5, 1, [1]⟩], 0⟩⟩,
      .deliver ⟨Trio.b, Trio.a, .appendEntries ⟨5, Trio.b, 1, 5, [], 1⟩⟩] ++ takeSnapshot Trio.a)
    (fun p => p.node.state = .follower && (p.node.currentTerm = 5 &&
      ((p.node.handleInstallSnapshot Trio.b ⟨5, Trio.b, 3, 5, [9]⟩).2.success &&
        (p.node.handleInstallSnapshot Trio.b ⟨5, Trio.b, 3, 5, [9]⟩).1.commitIndex = 1))) (by decide)
  simp only [Bool.and_eq_true, decide_eq_true_eq] at hp
  exact ⟨_, p, hr, hp⟩

end MiniStorage.Raft
