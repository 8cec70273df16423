import MiniStorage.Raft.LogMatching
import MiniStorage.Replication.Settled

namespace MiniStorage.Raft

open Replication

/-- What ApplyCommitted does for the first `k` entries of a log. -/
def trace (L : List LogEntry) (k : Nat) : List UpperEvent :=
  (List.range' 1 k).map fun i => .applied i L[i - 1]?

/-- What a node has committed and applied is settled in its log, its snapshot
and the one it is taking lie within that, and a leader knows no more of the
others than they have acknowledged. -/
structure Accounts (peers : List Bytes) (a : Ghost) (id : Bytes) (p : Process) : Prop where
  settled : a.Settled (a.log id) p.node.currentTerm p.node.commitIndex
  applied : p.node.lastApplied = p.node.commitIndex
  upper : p.node.upper = trace (a.log id) p.node.commitIndex
  snap : p.node.snapshotLastIndex ≤ p.node.commitIndex
  pending : ∀ s, p.snapshot = some s → p.node.snapshotLastIndex ≤ s.snap.lastIncludedIndex ∧
    s.snap.lastIncludedIndex ≤ p.node.commitIndex ∧
    s.snap.lastIncludedTerm = termAt (a.log id) s.snap.lastIncludedIndex
  next : p.node.state = .leader → ∀ q ∈ (RaftConfig.mk id peers).others, ∀ j,
    p.node.nextIndex q = some (j + 1) → j ≤ (a.log id).length
  matched : p.node.state = .leader → ∀ q ∈ (RaftConfig.mk id peers).others, ∀ m,
    p.node.matchIndex q = some m → m ≤ a.ack q p.node.currentTerm

/-- A request comes from the leader of its term and is cut from that leader's
log, and a success says no more than was acknowledged. -/
def Backed (a : Ghost) (q : Packet) : Prop :=
  match q.msg with
  | .appendEntries req => a.lead req.term = some q.src ∧
      (∃ L, Cut L req ∧ L <+: a.llog req.term ∧ req.prevLogIndex ≤ L.length) ∧
      a.Settled (a.llog req.term) req.term req.leaderCommit
  | .appendEntriesResponse resp => resp.success = true → resp.matchIndex ≤ a.ack q.src resp.term
  | _ => True

/-- The cluster does what the protocol does. -/
structure Sound (peers : List Bytes) (a : Ghost) (c : Cluster) : Prop where
  mirror : Mirror peers a c
  accounts : ∀ id, Accounts peers a id (c.procs id)
  backed : ∀ q ∈ c.net, Backed a q

variable {peers : List Bytes} {a b : Ghost} {c : Cluster} {id : Bytes} {p p' : Process} {net net' : List Packet}
  {act : Action} {n m : RaftNode} {L M : List LogEntry} {k t : Nat}

theorem trace_of_isPrefix (h : L <+: M) (hk : k ≤ L.length) : trace L k = trace M k := by
  refine List.map_congr_left fun i hi => ?_
  obtain ⟨h1, h2⟩ := List.mem_range'_1.mp hi
  obtain ⟨X, rfl⟩ := h
  rw [List.getElem?_append_left (by omega)]

theorem upper_applyCommitted (h : Holds n.log n.snapshotLastIndex L) (hs : n.snapshotLastIndex ≤ n.lastApplied)
    (hu : n.upper = trace L n.lastApplied) (hk : n.lastApplied ≤ k) :
    (n.applyCommitted k).upper = trace L k := by
  rw [RaftNode.applyCommitted_eq]
  show n.upper ++ _ = _
  have hnew : (List.range' (n.lastApplied + 1) (k - n.lastApplied)).map
      (fun i => UpperEvent.applied i (n.getLogEntry i)) =
      (List.range' (n.lastApplied + 1) (k - n.lastApplied)).map fun i => UpperEvent.applied i L[i - 1]? := by
    refine List.map_congr_left fun i hi => ?_
    obtain ⟨h1, h2⟩ := List.mem_range'_1.mp hi
    obtain ⟨j, rfl⟩ : ∃ j, i = j + 1 := ⟨i - 1, by omega⟩
    rw [RaftNode.getLogEntry, h.find_succ, if_pos (by omega), Nat.add_sub_cancel]
  rw [hu, hnew, trace, trace, ← List.map_append, Nat.add_comm n.lastApplied 1, List.range'_append_1,
    Nat.add_sub_cancel' hk]

theorem mem_applyCalls_trace {i : Nat} {x : Bytes} (h : (i, x) ∈ applyCalls (trace L k)) :
    0 < i ∧ i ≤ k ∧ ∃ e, L[i - 1]? = some e ∧ e.command = x := by
  obtain ⟨ev, hev, hx⟩ := List.mem_filterMap.mp h
  obtain ⟨j, hj, rfl⟩ := List.mem_map.mp hev
  obtain ⟨h1, h2⟩ := List.mem_range'_1.mp hj
  cases he : L[j - 1]? with
  | none => simp [he] at hx
  | some e =>
      simp only [he, Option.ite_none_left_eq_some, Option.some.injEq, Prod.mk.injEq] at hx
      obtain ⟨-, rfl, rfl⟩ := hx
      exact ⟨by omega, by omega, e, he, rfl⟩

theorem Sound.start (peers : List Bytes) : Sound peers (State.initial Bytes LogEntry) Raft.start where
  mirror := .start peers
  accounts _ := ⟨.zero, rfl, rfl, le_rfl, nofun, nofun, nofun⟩
  backed _ h := by cases h

theorem Backed.mono (ha : Inv LogEntry.term (Majority peers) a) (hle : a.Le b) {q : Packet} (h : Backed a q) :
    Backed b q := by
  obtain ⟨src, dst, msg⟩ := q
  cases msg with
  | appendEntries req =>
      obtain ⟨hlead, ⟨L, hcut, hL, hprev⟩, hs⟩ := h
      exact ⟨hle.lead _ _ hlead, ⟨L, hcut, hL.trans (hle.llog _), hprev⟩,
        (hs.mono ha hle le_rfl).of_isPrefix (hle.llog _)⟩
  | appendEntriesResponse resp => exact fun hok => (h hok).trans (hle.ack _ _)
  | _ => trivial

theorem Accounts.mono (h : Accounts peers a id p) (ha : Inv LogEntry.term (Majority peers) a) (hle : a.Le b)
    (hlog : b.log id = a.log id) : Accounts peers b id p where
  settled := by rw [hlog]; exact h.settled.mono ha hle le_rfl
  applied := h.applied
  upper := by rw [hlog]; exact h.upper
  snap := h.snap
  pending := by rw [hlog]; exact h.pending
  next := by rw [hlog]; exact h.next
  matched hl q hq m hm := (h.matched hl q hq m hm).trans (hle.ack _ _)

theorem Sound.put (h : Sound peers a c) (hle : a.Le b) (hlog : ∀ w, w ≠ id → b.log w = a.log w)
    (hm : Mirror peers b (c.put id p' net')) (hp : Accounts peers b id p')
    (hnet : ∀ q ∈ net', q ∈ c.net ∨ Backed b q) : Sound peers b (c.put id p' net') where
  mirror := hm
  accounts := put_cases (P := Accounts peers b) c net' hp fun w hw => (h.accounts w).mono h.mirror.inv hle (hlog w hw)
  backed q hq := (hnet q hq).elim (fun hq => (h.backed q hq).mono h.mirror.inv hle) fun hq => hq

theorem Mirror.ghost (h : Mirror peers a c) (hs : Relation.ReflTransGen (GhostStep peers) a b)
    (hterm : b.term = a.term) (hrole : b.role = a.role) (hlog : b.log = a.log) (hvote : b.vote = a.vote) :
    a.Le b ∧ Mirror peers b c := by
  obtain ⟨hle, hinv⟩ := h.inv.steps (fun _ _ => Majority.inter) hs
  refine ⟨hle, hinv, hvote ▸ h.elect, fun w => ?_, h.stocked, fun q hq => ?_⟩
  · have hn := h.node w
    exact ⟨hterm ▸ hn.term, hrole ▸ hn.role, hlog ▸ hn.log, hlog ▸ hn.snapTerm⟩
  · have hf := h.fair q hq
    obtain ⟨src, dst, msg⟩ := q
    cases msg with
    | requestVote req =>
        intro hr ht
        rw [hlog]
        exact hf (hrole ▸ hr) (hterm ▸ ht)
    | appendEntries req =>
        obtain ⟨L, hcut, hroot, ht⟩ := hf
        exact ⟨L, hcut, hroot.mono hle.llog, ht⟩
    | installSnapshot req => exact hf
    | _ => trivial

/-- A change that leaves a node's log, its snapshot and what it has committed
alone, and a leader's records where it stays one. -/
structure Keeps (n m : RaftNode) : Prop where
  log : m.log = n.log
  snapIndex : m.snapshotLastIndex = n.snapshotLastIndex
  snapTerm : m.snapshotLastTerm = n.snapshotLastTerm
  commit : m.commitIndex = n.commitIndex
  applied : m.lastApplied = n.lastApplied
  upper : m.upper = n.upper
  term : n.currentTerm ≤ m.currentTerm
  leader : m.state = .leader → n.state = .leader ∧ m.currentTerm = n.currentTerm ∧ m.nextIndex = n.nextIndex ∧
    m.matchIndex = n.matchIndex

namespace Keeps

theorem refl (n : RaftNode) : Keeps n n := ⟨rfl, rfl, rfl, rfl, rfl, rfl, le_rfl, fun hl => ⟨hl, rfl, rfl, rfl⟩⟩

theorem counting (n : RaftNode) (votes : Nat) : Keeps n { n with votesReceived := votes } := { refl n with }

theorem replying (h : Keeps n m) (resp : AppendEntriesResponse) : Keeps n { m with aeResp := resp } := { h with }

theorem voting (h : Keeps n m) (candidate : Bytes) : Keeps n { m with votedFor := candidate }.persistState := { h with }

theorem sendHeartbeats (cfg : RaftConfig) (n : RaftNode) : Keeps n (n.sendHeartbeats cfg) := by
  obtain ⟨l, hl⟩ := RaftNode.sendHeartbeats_shape cfg n
  rw [hl]
  exact { refl n with }

theorem becomeCandidate (cfg : RaftConfig) (n : RaftNode) : Keeps n (n.becomeCandidate cfg) :=
  ⟨rfl, rfl, rfl, rfl, rfl, rfl, Nat.le_succ _, fun hl => by cases hl⟩

theorem adoptTerm (h : n.currentTerm < t) : Keeps n (n.adoptTerm t) :=
  ⟨rfl, rfl, rfl, rfl, rfl, rfl, h.le, fun hl => by cases hl⟩

theorem catchUp (n : RaftNode) (t : Nat) : Keeps n (n.catchUp t) := by
  rcases Nat.lt_or_ge n.currentTerm t with hlt | hge
  · rw [RaftNode.catchUp_of_lt hlt]
    exact adoptTerm hlt
  · rw [RaftNode.catchUp_of_le hge]
    exact refl n

theorem follow (n : RaftNode) (leader : Bytes) (t : Nat) : Keeps n (n.follow leader t) :=
  { catchUp n t with leader := fun hl => by cases hl }

theorem handleRequestVote (n : RaftNode) (req : RequestVoteRequest) : Keeps n (n.handleRequestVote req).1 := by
  have ho := RaftNode.handleRequestVote_cases n req
  generalize n.handleRequestVote req = r at ho ⊢
  cases ho with
  | stale => exact refl n
  | refuse => exact catchUp n _
  | grant => exact (catchUp n _).voting _

theorem handleRequestVoteResponse (cfg : RaftConfig) (n : RaftNode) (resp : RequestVoteResponse) :
    Keeps n (n.handleRequestVoteResponse cfg resp) ∨
      ∃ votes, n.handleRequestVoteResponse cfg resp = { n with votesReceived := votes }.becomeLeader cfg := by
  have ho := RaftNode.handleRequestVoteResponse_cases cfg n resp
  generalize n.handleRequestVoteResponse cfg resp = r at ho ⊢
  cases ho with
  | adopt ht => exact .inl (adoptTerm ht)
  | ignore => exact .inl (refl n)
  | count => exact .inl (counting n _)
  | win => exact .inr ⟨_, rfl⟩

end Keeps

theorem Accounts.keep (h : Accounts peers a id p) (ha : Inv LogEntry.term (Majority peers) a) (hle : a.Le b)
    (hlog : b.log id = a.log id) (hk : Keeps p.node p'.node) (hpending : p'.snapshot = p.snapshot) :
    Accounts peers b id p' where
  settled := by rw [hlog, hk.commit]; exact h.settled.mono ha hle hk.term
  applied := by rw [hk.applied, hk.commit]; exact h.applied
  upper := by rw [hlog, hk.upper, hk.commit]; exact h.upper
  snap := by rw [hk.snapIndex, hk.commit]; exact h.snap
  pending := by rw [hlog, hk.snapIndex, hk.commit, hpending]; exact h.pending
  next hl := by
    obtain ⟨hl, -, hn, -⟩ := hk.leader hl
    rw [hlog, hn]
    exact h.next hl
  matched hl q hq m hm := by
    obtain ⟨hl, ht, -, hmi⟩ := hk.leader hl
    rw [hmi] at hm
    rw [ht]
    exact (h.matched hl q hq m hm).trans (hle.ack _ _)

theorem Accounts.follower (h : Accounts peers a id p) (ha : Inv LogEntry.term (Majority peers) a) (hle : a.Le b)
    (hlog : (a.log id).take p.node.commitIndex <+: b.log id) (hterm : p.node.currentTerm ≤ p'.node.currentTerm)
    (hcommit : p'.node.commitIndex = p.node.commitIndex) (happlied : p'.node.lastApplied = p.node.lastApplied)
    (hupper : p'.node.upper = p.node.upper) (hsnap : p'.node.snapshotLastIndex = p.node.snapshotLastIndex)
    (hpending : p'.snapshot = p.snapshot) (hstate : p'.node.state ≠ .leader) : Accounts peers b id p' := by
  have hlen := h.settled.length_le ha
  have htake : p.node.commitIndex ≤ ((a.log id).take p.node.commitIndex).length := by rw [List.length_take]; omega
  refine ⟨?_, ?_, ?_, ?_, fun s hs => ?_, fun hl => absurd hl hstate, fun hl => absurd hl hstate⟩
  · rw [hcommit]
    exact ((h.settled.mono ha hle hterm).to_isPrefix (List.take_prefix _ _) htake).of_isPrefix hlog
  · rw [happlied, hcommit]; exact h.applied
  · rw [hupper, hcommit, h.upper, ← trace_of_isPrefix (List.take_prefix _ _) htake, trace_of_isPrefix hlog htake]
  · rw [hsnap, hcommit]; exact h.snap
  · rw [hpending] at hs
    obtain ⟨h1, h2, h3⟩ := h.pending s hs
    rw [hsnap, hcommit]
    refine ⟨h1, h2, h3.trans ?_⟩
    rw [← termAt_of_isPrefix (List.take_prefix _ _) (h2.trans htake), termAt_of_isPrefix hlog (h2.trans htake)]

theorem Accounts.becomeLeader (h : Accounts peers a id p) (ha : Inv LogEntry.term (Majority peers) a)
    (hle : a.Le b) (hlog : b.log id = a.log id)
    (hholds : Holds p.node.log p.node.snapshotLastIndex (a.log id)) {v : Nat}
    (hn : p'.node = { p.node with votesReceived := v }.becomeLeader ⟨id, peers⟩)
    (hpending : p'.snapshot = p.snapshot) : Accounts peers b id p' := by
  rw [RaftNode.becomeLeader_eq] at hn
  refine ⟨?_, ?_, ?_, ?_, ?_, fun _ q hq j hj => ?_, fun _ q hq m hm => ?_⟩
  · rw [hn, hlog]; exact h.settled.mono ha hle le_rfl
  · rw [hn]; exact h.applied
  · rw [hn, hlog]; exact h.upper
  · rw [hn]; exact h.snap
  · rw [hn, hlog, hpending]; exact h.pending
  · rw [hn] at hj
    dsimp only at hj
    rw [if_pos hq, hholds.max_back] at hj
    have hj := Option.some.inj hj
    rw [hlog]
    omega
  · rw [hn] at hm
    dsimp only at hm
    rw [if_pos hq] at hm
    exact (Option.some.inj hm).ge.trans (Nat.zero_le _)

/-- The nodes AdvanceCommitIndex counts for an index. -/
def holders (peers : List Bytes) (id : Bytes) (n : RaftNode) (index : Nat) : Finset Bytes :=
  insert id ((RaftConfig.mk id peers).others.filter fun p => (n.matchIndex p).any (index ≤ ·)).toFinset

theorem mem_holders {i : Nat} {v : Bytes} : v ∈ holders peers id n i ↔
    v = id ∨ v ∈ (RaftConfig.mk id peers).others ∧ (n.matchIndex v).any (i ≤ ·) = true := by
  rw [holders, Finset.mem_insert, List.mem_toFinset, List.mem_filter]

theorem holders_majority (hid : id ∈ peers) (hnd : peers.Nodup) {i : Nat}
    (hmaj : (RaftConfig.mk id peers).majority ≤ n.replicas ⟨id, peers⟩ i) :
    Majority peers (holders peers id n i) := by
  refine ⟨fun v hv => ?_, ?_⟩
  · rcases mem_holders.mp hv with rfl | ⟨hv, -⟩
    · exact List.mem_toFinset.mpr hid
    · exact List.mem_toFinset.mpr (List.mem_of_mem_filter hv)
  · have hd : ((RaftConfig.mk id peers).others.filter fun p => (n.matchIndex p).any (i ≤ ·)).Nodup :=
      (hnd.filter _).filter _
    rw [holders, Finset.card_insert_of_notMem, List.toFinset_card_of_nodup hd]
    · rw [RaftConfig.majority, RaftNode.replicas, Nat.add_comm 1] at hmaj
      exact hmaj
    · intro hv
      have := (List.mem_filter.mp (List.mem_of_mem_filter (List.mem_toFinset.mp hv))).2
      simp at this

theorem Accounts.commit (h : Accounts peers a id p) (hle : a.Le b) (hlog : a.log id <+: b.log id)
    (hlen : p.node.commitIndex ≤ (a.log id).length)
    (hholds : Holds n.log n.snapshotLastIndex (b.log id)) (hk : p.node.commitIndex < k)
    (hset : b.Settled (b.log id) n.currentTerm k) (hsnap : n.snapshotLastIndex = p.node.snapshotLastIndex)
    (happlied : n.lastApplied = p.node.lastApplied) (hupper : n.upper = p.node.upper)
    (hterm : n.state = .leader → p.node.state = .leader ∧ n.currentTerm = p.node.currentTerm ∧
      n.nextIndex = p.node.nextIndex ∧ n.matchIndex = p.node.matchIndex)
    (hn : p'.node = { n with commitIndex := k }.applyCommitted k) (hpending : p'.snapshot = p.snapshot) :
    Accounts peers b id p' := by
  have hsn := h.snap
  have hup : ({ n with commitIndex := k }.applyCommitted k).upper = trace (b.log id) k := by
    refine upper_applyCommitted hholds ?_ ?_ ?_
    · show n.snapshotLastIndex ≤ n.lastApplied
      rw [hsnap, happlied, h.applied]; exact hsn
    · show n.upper = trace (b.log id) n.lastApplied
      rw [hupper, happlied, h.applied, h.upper, trace_of_isPrefix hlog hlen]
    · show n.lastApplied ≤ k
      rw [happlied, h.applied]; exact hk.le
  rw [RaftNode.applyCommitted_eq] at hn hup
  refine ⟨?_, ?_, ?_, ?_, ?_, fun hl => ?_, fun hl q hq m hm => ?_⟩
  · rw [hn]; exact hset
  · rw [hn]
    show max n.lastApplied k = k
    rw [happlied, h.applied]; exact max_eq_right hk.le
  · rw [hn]; exact hup
  · rw [hn]
    show n.snapshotLastIndex ≤ k
    rw [hsnap]; exact hsn.trans hk.le
  · rw [hn, hpending]
    intro s hs
    obtain ⟨h1, h2, h3⟩ := h.pending s hs
    refine ⟨hsnap.trans_le h1, h2.trans hk.le, h3.trans (termAt_of_isPrefix hlog (h2.trans hlen))⟩
  · rw [hn] at hl ⊢
    obtain ⟨hl, -, hni, -⟩ := hterm hl
    intro q hq j hj
    exact (h.next hl q hq j (hni ▸ hj)).trans hlog.length_le
  · rw [hn] at hl hm ⊢
    obtain ⟨hl, ht, -, hmi⟩ := hterm hl
    show m ≤ b.ack q n.currentTerm
    rw [ht]
    exact (h.matched hl q hq m (hmi ▸ hm)).trans (hle.ack _ _)

/-- AdvanceCommitIndex on a leader: the copies it counts are a majority's acknowledgements. -/
theorem Mirror.advance (h : Mirror peers a c) (hid : id ∈ peers) (hnd : peers.Nodup) {q : Process}
    (hq : Accounts peers a id q) (hlead : q.node.state = .leader)
    (hc : (c.procs id).node = q.node.advanceCommitIndex ⟨id, peers⟩) (hpending : (c.procs id).snapshot = q.snapshot) :
    ∃ b, a.Le b ∧ b.log = a.log ∧ Mirror peers b c ∧ Accounts peers b id (c.procs id) := by
  obtain ⟨hl, hs, -⟩ := RaftNode.advanceCommitIndex_logs ⟨id, peers⟩ q.node
  have hm := h.node id
  rw [Cluster.node] at hm
  have hholds := hm.log
  rw [hc, hl, hs] at hholds
  have hterm : a.term id = q.node.currentTerm := by
    obtain ⟨i, j, u, he⟩ := RaftNode.advanceCommitIndex_shape ⟨id, peers⟩ q.node
    rw [hm.term, hc, he]
  have hrole : a.role id = .leader := by rw [hm.role, hc, RaftNode.advanceCommitIndex_state, hlead]; rfl
  have hllog := h.inv.matching.leader hrole
  rw [hterm] at hllog
  rcases RaftNode.advanceFrom_cases ⟨id, peers⟩ q.node (back q.node.log).index with he | ⟨i, hi, -, hcommits, he⟩
  · have he : (c.procs id).node = q.node := hc.trans he
    exact ⟨a, .refl a, rfl, h, hq.keep h.inv (.refl a) rfl (he.symm ▸ .refl _) hpending⟩
  simp only [RaftNode.commits, Bool.and_eq_true, decide_eq_true_eq, Option.any_eq_true] at hcommits
  obtain ⟨⟨e, hfind, het⟩, hmaj⟩ := hcommits
  have hsnap := hq.snap
  obtain ⟨j, rfl⟩ : ∃ j, i = j + 1 := ⟨i - 1, by omega⟩
  rw [RaftNode.getLogEntry, hholds.find_succ, if_pos (by omega)] at hfind
  have hjlen := (List.getElem?_eq_some_iff.mp hfind).1
  -- the leader acknowledges its own log before its majority is counted
  have hself : GhostStep peers a (a.acknowledge id (a.log id).length) :=
    .acknowledge id _ (by rw [h.inv.votes.leader hrole]; simp) (by rw [hterm, hllog])
      (by rw [hterm, ← hllog, List.take_length])
  have hack {v : Bytes} {t : Nat} : a.ack v t ≤ (a.acknowledge id (a.log id).length).ack v t :=
    (h.inv.steps (fun _ _ => Majority.inter) (.single hself)).1.ack v t
  have hdecide : GhostStep peers (a.acknowledge id (a.log id).length)
      ((a.acknowledge id (a.log id).length).decide q.node.currentTerm (j + 1)) := by
    refine .decide _ j e (hllog ▸ hfind) (by simpa using het) _ (holders_majority hid hnd hmaj) fun v hv => ?_
    rcases mem_holders.mp hv with rfl | ⟨hv, hany⟩
    · rw [← hterm]
      simp only [State.acknowledge, Function.update_self]
      omega
    · obtain ⟨m, hm, hle⟩ := (Option.any_eq_true _ _).mp hany
      have hle : j + 1 ≤ m := by simpa using hle
      exact hle.trans ((hq.matched hlead v hv m hm).trans hack)
  obtain ⟨hle, hmir⟩ := h.ghost (.tail (.single hself) hdecide) rfl rfl rfl rfl
  have hset : ((a.acknowledge id (a.log id).length).decide q.node.currentTerm (j + 1)).Settled (a.log id)
      q.node.currentTerm (j + 1) := by
    rw [hllog]
    exact .of_commit (Set.mem_insert _ _)
  exact ⟨_, hle, rfl, hmir, hq.commit hle (List.prefix_refl _) (hq.settled.length_le h.inv) hholds hi hset
    rfl rfl rfl (fun _ => ⟨hlead, rfl, rfl, rfl⟩) (hc.trans he) hpending⟩

/-- A request that passes the checks of a follower with a matching end leaves it
with a prefix of the log of the request's term. -/
theorem Sound.accepted_isPrefix (h : Sound peers a c) {req : AppendEntriesRequest} {src : Bytes}
    (hmem : ⟨src, id, .appendEntries req⟩ ∈ c.net)
    (hback : (back (c.node id).log).index = (a.log id).length)
    (hprev : req.prevLogIndex ≤ (a.log id).length)
    (hcheck : ∀ e, (c.node id).getLogEntry req.prevLogIndex = some e → e.term = req.prevLogTerm)
    (hends : (c.node id).endsIn req = true ∨ (back (c.node id).log).term = req.term) :
    ∃ L, Cut L req ∧ (∀ e ∈ L, e.term ≤ req.term) ∧ a.log id ++ L.drop (a.log id).length <+: a.llog req.term := by
  obtain ⟨-, ⟨L, hcut, hL, hlen⟩, -⟩ := h.backed _ hmem
  have hm := h.mirror.node id
  have hmat := h.mirror.inv.matching
  refine ⟨L, hcut, fun e he => hmat.llog_le _ e (hL.subset he), ?_⟩
  have hlog : a.log id <+: a.llog req.term := by
    rcases hends with hends | hterm
    · exact (hm.prefix_of_endsIn (hmat.log id) hcut ((hmat.llog _).of_isPrefix hL) hback hprev hlen hcheck hends).trans
        hL
    · rcases Nat.eq_zero_or_pos (a.log id).length with h0 | hpos
      · rw [List.eq_nil_of_length_eq_zero h0]
        exact List.nil_prefix
      · obtain ⟨hlast, -⟩ := hm.log.back_of_lt (hm.log.lt_of_back hback hpos)
        have hroot := hmat.log id _ _ hlast
        rwa [List.take_of_length_le (by omega), hterm] at hroot
  rcases Nat.le_total (a.log id).length L.length with hle | hle
  · rw [append_drop_of_isPrefix (List.prefix_of_prefix_length_le hlog hL hle)]
    exact hL
  · rw [List.drop_eq_nil_of_le hle, List.append_nil]
    exact hlog

/-- A request never makes a follower cut into what it has committed. -/
theorem Sound.truncation_above (h : Sound peers a c) {req : AppendEntriesRequest} {src : Bytes}
    (hmem : ⟨src, id, .appendEntries req⟩ ∈ c.net) (hterm : (c.node id).currentTerm ≤ req.term) {i : Nat}
    {e : LogEntry} (hprev : req.prevLogIndex = i + 1) (he : (a.log id)[i]? = some e)
    (hne : e.term ≠ req.prevLogTerm) :
    (c.node id).commitIndex ≤ i ∧
      ∃ f, (a.llog req.term)[i]? = some f ∧ e ≠ f := by
  obtain ⟨hlead, ⟨L, hcut, hL, hlen⟩, -⟩ := h.backed _ hmem
  obtain ⟨f, hf⟩ : ∃ f, L[i]? = some f := ⟨_, List.getElem?_eq_getElem (by omega)⟩
  have hfl := getElem?_of_isPrefix hL hf
  have hne' : e ≠ f := by
    rintro rfl
    rw [hcut.prevTerm, hprev, termAt_succ hf] at hne
    exact hne rfl
  refine ⟨?_, f, hfl, hne'⟩
  by_contra hlt
  have hp := ((h.accounts id).settled).led (fun _ _ => Majority.inter) h.mirror.inv hlead hterm
  have hei : ((a.log id).take (c.procs id).node.commitIndex)[i]? = some e := by
    rw [List.getElem?_take_of_lt (by simp only [Cluster.node] at hlt; omega), he]
  exact hne' (Option.some.inj ((getElem?_of_isPrefix hp hei).symm.trans hfl))

theorem backed_reply {r s : Packet} (hs : Backed b s) (q : Packet) (hq : q ∈ s :: net.erase r) :
    q ∈ net ∨ Backed b q := by
  rcases List.mem_cons.mp hq with rfl | hq
  · exact .inr hs
  · exact .inl (List.mem_of_mem_erase hq)

/-- A follower that takes entries over acknowledges its whole log to the sender. -/
theorem Sound.accept (h : Sound peers a c) (hnd : peers.Nodup) (hnil : [] ∉ peers) {src : Bytes}
    {req : AppendEntriesRequest} (hmem : ⟨src, id, .appendEntries req⟩ ∈ c.net)
    (hterm : (c.node id).currentTerm ≤ req.term) (hsnap : (c.node id).snapshotLastIndex ≤ req.prevLogIndex)
    (hprev : req.prevLogIndex ≤ (back (c.node id).log).index)
    (hcheck : ∀ e, (c.node id).getLogEntry req.prevLogIndex = some e → e.term = req.prevLogTerm)
    (hends : (c.node id).endsIn req = true ∨ (back (c.node id).log).term = req.term)
    (hp : ProcStep peers id (c.procs id) c.net act p' net')
    (hn : p'.node = ((c.node id).follow req.leaderId req.term).acceptEntries req)
    (hpending : p'.snapshot = (c.procs id).snapshot)
    (hnet : net' = ⟨id, src, .appendEntriesResponse p'.node.aeResp⟩ :: c.net.erase ⟨src, id, .appendEntries req⟩) :
    ∃ b, a.Le b ∧ Sound peers b (c.put id p' net') := by
  subst hnet
  have hm := h.mirror.node id
  have hacc := h.accounts id
  have hback := hm.log.back_index (hsnap.trans hprev)
  have hlen : req.prevLogIndex ≤ (a.log id).length := hprev.trans hback.le
  obtain ⟨L, hcut, hLterm, hL⟩ := h.accepted_isPrefix hmem hback hlen hcheck hends
  obtain ⟨hlead, -, hset⟩ := h.backed _ hmem
  obtain ⟨b, hle, hlog, -, -, hend, hmir⟩ := h.mirror.accept hnd hnil hcut hLterm hp (hn ▸ .acceptEntries _ _ _) hn
    hterm hback hlen ((h.mirror.inv.matching.llog _).of_isPrefix hL)
    (fair_reply fun _ => trivial)
  have hm' := hmir.node id
  rw [put_node] at hm'
  have hL' : b.log id <+: b.llog req.term := by
    rw [hlog, Function.update_self]
    exact hL.trans (hle.llog _)
  have hgrow : a.log id <+: b.log id := by
    rw [hlog, Function.update_self]
    exact List.prefix_append _ _
  obtain ⟨m, hmdef⟩ : ∃ m, m = ((c.node id).follow req.leaderId req.term).storeEntries req.entries := ⟨_, rfl⟩
  have hfields : m.currentTerm = req.term ∧ m.commitIndex = (c.node id).commitIndex ∧
      m.lastApplied = (c.node id).lastApplied ∧ m.upper = (c.node id).upper ∧
      m.snapshotLastIndex = (c.node id).snapshotLastIndex ∧ m.state = .follower := by
    rw [hmdef]
    exact ⟨(RaftNode.catchUp_currentTerm _).trans (max_eq_right hterm), RaftNode.catchUp_commitIndex _,
      RaftNode.catchUp_lastApplied _, RaftNode.catchUp_upper _, RaftNode.catchUp_snapshotLastIndex _, rfl⟩
  obtain ⟨hcur, hci, hla, hup, hsi, hst⟩ := hfields
  rw [RaftNode.acceptEntries, ← hmdef] at hn
  obtain ⟨i, j, u, hshape⟩ := RaftNode.followCommit_shape m req.leaderCommit
  have hnlog : p'.node.log = m.log ∧ p'.node.snapshotLastIndex = m.snapshotLastIndex ∧
      p'.node.currentTerm = req.term ∧ p'.node.aeResp = ⟨req.term, true, (back m.log).index⟩ := by
    rw [hn, hshape, ← hcur]
    exact ⟨rfl, rfl, rfl, rfl⟩
  obtain ⟨hlog', hsnap', hterm', hresp⟩ := hnlog
  rw [hlog'] at hend
  have hbterm : b.term id = req.term := hm'.term.trans hterm'
  have hack : GhostStep peers b (b.acknowledge id (b.log id).length) :=
    .acknowledge id _ (by rw [hbterm, hle.lead _ _ hlead]; simp) (by rw [hbterm]; exact hL'.length_le)
      (by rw [hbterm, ← take_eq_of_isPrefix hL' le_rfl, List.take_length])
  obtain ⟨hle', hmir'⟩ := hmir.ghost (.single hack) rfl rfl rfl rfl
  have hb := hle.trans hle'
  refine ⟨_, hb, h.put hb (fun w hw => ?_) hmir' ?_ (backed_reply fun _ => ?_)⟩
  · show b.log w = a.log w
    rw [hlog]; simp [hw]
  · have hcommit := hacc.settled.length_le h.mirror.inv
    have hstate : p'.node.state ≠ .leader := by rw [hn, hshape]; show m.state ≠ _; rw [hst]; simp
    rcases RaftNode.followCommit_cases m req.leaderCommit with ⟨-, he⟩ | ⟨hk, he⟩
    · rw [he] at hn
      exact hacc.follower h.mirror.inv hb ((List.take_prefix _ _).trans hgrow) (hterm.trans hterm'.ge)
        (by rw [hn]; exact hci) (by rw [hn]; exact hla) (by rw [hn]; exact hup) (by rw [hn]; exact hsi) hpending hstate
    · rw [he] at hn
      have hholds := hm'.log
      rw [hlog', hsnap'] at hholds
      have hset' : (b.acknowledge id (b.log id).length).Settled (b.log id) m.currentTerm
          (min req.leaderCommit (back m.log).index) := by
        have hs := ((hset.mono h.mirror.inv hb hcur.ge).of_isPrefix (hb.llog _)).shorter
          (min_le_left req.leaderCommit (back m.log).index)
        exact hs.to_isPrefix hL' ((min_le_right _ _).trans hend.le)
      have hq : Accounts peers _ id { p' with node := { m with commitIndex := _ }.applyCommitted _ } :=
        hacc.commit hb hgrow hcommit hholds (hk.trans_le' hci.ge) hset' hsi hla hup
          (fun hl => absurd hl (by rw [hst]; simp)) rfl hpending
      refine hq.keep hmir'.inv (.refl _) rfl ?_ rfl
      rw [hn]
      exact (Keeps.refl _).replying _
  · rw [hresp, ← hbterm, State.acknowledge]
    simp only [Function.update_self]
    exact hend.le.trans (le_max_right _ _)

theorem Sound.quiet (h : Sound peers a c) (hnd : peers.Nodup) (hnil : [] ∉ peers)
    (hp : ProcStep peers id (c.procs id) c.net act p' net') (hcrash : noCrash act = true)
    (hsend : sendsAboveSnapshot peers c act = true) (hvote : votesAboveSnapshot c act = true)
    (hlog : p'.node.log = (c.node id).log) (hsnap : p'.node.snapshotLastIndex = (c.node id).snapshotLastIndex)
    (hsnapTerm : p'.node.snapshotLastTerm = (c.node id).snapshotLastTerm)
    (hb : ∀ b, a.Le b → b.log = a.log → Mirror peers b (c.put id p' net') →
      ∃ d, b.Le d ∧ d.log = b.log ∧ Mirror peers d (c.put id p' net') ∧ Accounts peers d id p' ∧
        ∀ q ∈ net', q ∈ c.net ∨ Backed d q) :
    ∃ b, a.Le b ∧ Sound peers b (c.put id p' net') := by
  obtain ⟨b, hle, hbl, -, -, hmir⟩ := h.mirror.quiet hnd hnil hp hlog hsnap hsnapTerm hcrash hsend hvote
  obtain ⟨d, hle', hdl, hmir', hd, hnet⟩ := hb b hle hbl hmir
  exact ⟨d, hle.trans hle', h.put (hle.trans hle') (fun w _ => by rw [hdl, hbl]) hmir' hd hnet⟩

theorem Sound.keep (h : Sound peers a c) (hnd : peers.Nodup) (hnil : [] ∉ peers)
    (hp : ProcStep peers id (c.procs id) c.net act p' net') (hcrash : noCrash act = true)
    (hsend : sendsAboveSnapshot peers c act = true) (hvote : votesAboveSnapshot c act = true)
    (hk : Keeps (c.node id) p'.node) (hpending : p'.snapshot = (c.procs id).snapshot)
    (hnet : ∀ b, ∀ q ∈ net', q ∈ c.net ∨ Backed b q) : ∃ b, a.Le b ∧ Sound peers b (c.put id p' net') :=
  h.quiet hnd hnil hp hcrash hsend hvote hk.log hk.snapIndex hk.snapTerm fun b hle hbl hmir =>
    ⟨b, .refl b, rfl, hmir, (h.accounts id).keep h.mirror.inv hle (by rw [hbl]) hk hpending, hnet b⟩

theorem Sound.leader_log (h : Sound peers a c) (hl : (c.node id).state = .leader) :
    a.lead (c.node id).currentTerm = some id ∧ a.log id = a.llog (c.node id).currentTerm := by
  have hm := h.mirror.node id
  have hrole : a.role id = .leader := hm.role.trans (congrArg RaftState.role hl)
  rw [← hm.term]
  exact ⟨h.mirror.inv.votes.leader hrole, h.mirror.inv.matching.leader hrole⟩

theorem Sound.matched_le (h : Sound peers a c) {src : Bytes} {resp : AppendEntriesResponse}
    (hmem : ⟨src, id, .appendEntriesResponse resp⟩ ∈ c.net) (hcount : countsOwnTerm c
      (.deliver ⟨src, id, .appendEntriesResponse resp⟩) = true) (hl : (c.node id).state = .leader)
    (hok : resp.success = true) (ht : resp.term ≤ (c.node id).currentTerm) :
    resp.matchIndex ≤ a.ack src (c.node id).currentTerm ∧ resp.matchIndex ≤ (a.log id).length := by
  have hown : (c.node id).currentTerm ≤ resp.term := of_decide_eq_true hcount (by rw [hok, hl]; rfl)
  have hack : resp.matchIndex ≤ a.ack src (c.node id).currentTerm := (le_antisymm ht hown) ▸ h.backed _ hmem hok
  refine ⟨hack, ?_⟩
  rw [(h.leader_log hl).2]
  exact hack.trans (h.mirror.inv.kept.ack_le _ _)

theorem Sound.heartbeat (h : Sound peers a c) (hnd : peers.Nodup) (hnil : [] ∉ peers) {peer : Bytes}
    {rest : List Bytes} (hp : ProcStep peers id (c.procs id) c.net (.heartbeat id) p' net')
    (hp' : p' = { c.procs id with node := { (c.procs id).node with sending := rest } })
    (hnet : net' = ⟨id, peer, .appendEntries ((c.procs id).node.heartbeatRequest ⟨id, peers⟩ peer)⟩ :: c.net)
    (hpeers : (c.procs id).node.sending = peer :: rest) (hsend : sendsAboveSnapshot peers c (.heartbeat id) = true)
    (hstate : (c.node id).state = .leader) : ∃ b, a.Le b ∧ Sound peers b (c.put id p' net') := by
  subst hp' hnet
  have hm := h.mirror.node id
  have hacc := h.accounts id
  refine h.quiet hnd hnil hp rfl hsend rfl rfl rfl rfl fun b hle hbl hmir => ⟨b, .refl b, rfl, hmir,
    hacc.keep h.mirror.inv hle (by rw [hbl]) { Keeps.refl (c.node id) with } rfl, fun q hq => ?_⟩
  rcases List.mem_cons.mp hq with rfl | hq
  · obtain ⟨-, hpeer, hne⟩ := (h.mirror.elect.seat id).sending peer (hpeers ▸ List.mem_cons_self)
    obtain ⟨j, hj⟩ := (h.mirror.stocked id).sending peer (by rw [Cluster.node, hpeers]; exact List.mem_cons_self)
    have hj' : (c.procs id).node.nextIndex peer = some (j + 1) := hj
    have hother : peer ∈ (RaftConfig.mk id peers).others := List.mem_filter.mpr ⟨hpeer, decide_eq_true hne.symm⟩
    have hprev : ((c.procs id).node.heartbeatRequest ⟨id, peers⟩ peer).prevLogIndex = j := by
      rw [RaftNode.heartbeatRequest_eq _ hj']
    obtain ⟨hlead, hllog⟩ := h.leader_log hstate
    have hs : (c.node id).snapshotLastIndex ≤ j := by
      simpa [sendsAboveSnapshot, Cluster.node, hpeers, RaftNode.heartbeatRequest, hj'] using hsend
    have hgrow : a.log id <+: b.llog (c.node id).currentTerm := by
      rw [hllog]
      exact hle.llog _
    exact .inr ⟨hle.lead _ _ hlead, ⟨a.log id, hm.cut hj hs, hgrow,
      hprev.trans_le (hacc.next hstate peer hother j hj)⟩,
        (hacc.settled.mono h.mirror.inv hle le_rfl).of_isPrefix hgrow⟩
  · exact .inl hq

theorem Sound.propose (h : Sound peers a c) (hnd : peers.Nodup) (hnil : [] ∉ peers) {command : Bytes}
    {calls : List ProposeCall} (hp : ProcStep peers id (c.procs id) c.net (.propose id command) p' c.net)
    (hp' : p' = { c.procs id with node := ((c.procs id).node.propose ⟨id, peers⟩ command).1, calls := calls })
    (hstate : (c.node id).state = .leader) (hsnap : (c.node id).snapshotLastIndex ≤ (back (c.node id).log).index) :
    ∃ b, a.Le b ∧ Sound peers b (c.put id p' c.net) := by
  subst hp'
  have hacc := h.accounts id
  obtain ⟨b, hle, hbl, hba, -, hmir⟩ := h.mirror.propose hnd hnil hp rfl rfl hstate
    ((h.mirror.node id).log.back_index hsnap)
  refine ⟨b, hle, h.put hle (fun w hw => by rw [hbl]; simp [hw]) hmir ?_ fun q hq => .inl hq⟩
  have hgrow : a.log id <+: b.log id := by rw [hbl, Function.update_self]; exact List.prefix_append _ _
  have hlen := hacc.settled.length_le h.mirror.inv
  have hself {q : Bytes} (hq : q ∈ (RaftConfig.mk id peers).others) : q ≠ id := by
    simpa using (List.mem_filter.mp hq).2
  refine ⟨(hacc.settled.mono h.mirror.inv hle le_rfl).of_isPrefix hgrow, hacc.applied,
    hacc.upper.trans (trace_of_isPrefix hgrow hlen), hacc.snap, fun s hs => ?_, fun _ q hq j hj => ?_,
    fun _ q hq m hm => ?_⟩
  · obtain ⟨h1, h2, h3⟩ := hacc.pending s hs
    exact ⟨h1, h2, h3.trans (termAt_of_isPrefix hgrow (h2.trans hlen))⟩
  · have hj : (c.procs id).node.nextIndex q = some (j + 1) := by
      simpa [RaftNode.propose, RaftNode.persistState, hself hq] using hj
    exact (hacc.next hstate q hq j hj).trans hgrow.length_le
  · have hm : (c.procs id).node.matchIndex q = some m := by
      simpa [RaftNode.propose, RaftNode.persistState, hself hq] using hm
    exact (hacc.matched hstate q hq m hm).trans (hle.ack _ _)

theorem Accounts.setNext (h : Accounts peers a id p) {peer : Bytes} {j : Nat} (hj : j ≤ (a.log id).length) :
    Accounts peers a id { p with
      node := { p.node with nextIndex := Function.update p.node.nextIndex peer (some (j + 1)) } } := by
  refine ⟨h.settled, h.applied, h.upper, h.snap, h.pending, fun hl q hq i hi => ?_, h.matched⟩
  by_cases hqp : q = peer
  · subst q
    have hi : j = i := by simpa using hi
    exact hi ▸ hj
  · exact h.next hl q hq i (by simpa [hqp] using hi)

theorem Accounts.setMatch (h : Accounts peers a id p) {peer : Bytes} {m : Nat}
    (hm : m ≤ a.ack peer p.node.currentTerm) : Accounts peers a id { p with
      node := { p.node with matchIndex := Function.update p.node.matchIndex peer (some m) } } := by
  refine ⟨h.settled, h.applied, h.upper, h.snap, h.pending, h.next, fun hl q hq i hi => ?_⟩
  by_cases hqp : q = peer
  · subst q
    have hi : m = i := by simpa using hi
    exact hi ▸ hm
  · exact h.matched hl q hq i (by simpa [hqp] using hi)

theorem Accounts.capture (h : Accounts peers a id p) (hm : Mirrors a id p.node)
    (hlen : p.node.commitIndex ≤ (a.log id).length) {data : Bytes} {snap : SnapshotMetadata}
    (hs : p.node.captureSnapshot data = some snap) : p.node.snapshotLastIndex ≤ snap.lastIncludedIndex ∧
      snap.lastIncludedIndex ≤ p.node.commitIndex ∧
      snap.lastIncludedTerm = termAt (a.log id) snap.lastIncludedIndex := by
  rw [RaftNode.captureSnapshot, Option.ite_none_left_eq_some] at hs
  obtain ⟨hlt, hs⟩ := hs
  cases hs
  have happ := h.applied
  obtain ⟨i, hi⟩ : ∃ i, p.node.lastApplied = i + 1 := ⟨p.node.lastApplied - 1, by omega⟩
  refine ⟨by show _ ≤ p.node.lastApplied; omega, happ.le, ?_⟩
  obtain ⟨e, hget⟩ : ∃ e, (a.log id)[i]? = some e := ⟨_, List.getElem?_eq_getElem (by omega)⟩
  show ((p.node.getLogEntry p.node.lastApplied).map (·.term)).getD _ = termAt (a.log id) p.node.lastApplied
  rw [hi, RaftNode.getLogEntry, hm.log.find_succ, if_pos (by omega), termAt_succ hget, hget]
  rfl

theorem backed_erase (r : Packet) (b : Ghost) (q : Packet) (hq : q ∈ c.net.erase r) : q ∈ c.net ∨ Backed b q :=
  .inl (List.mem_of_mem_erase hq)

theorem Sound.timer (h : Sound peers a c) (hnd : peers.Nodup) (hnil : [] ∉ peers)
    (hp : ProcStep peers id (c.procs id) c.net (.timer id) ((c.procs id).timerStep ⟨id, peers⟩).1
      (((c.procs id).timerStep ⟨id, peers⟩).2 ++ c.net)) :
    ∃ b, a.Le b ∧ Sound peers b (c.put id ((c.procs id).timerStep ⟨id, peers⟩).1
      (((c.procs id).timerStep ⟨id, peers⟩).2 ++ c.net)) := by
  cases htimer : (c.procs id).timer with
  | idle | tally =>
      simp only [Process.timerStep, htimer] at hp ⊢
      exact h.keep hnd hnil hp rfl rfl rfl (.refl _) rfl fun _ q hq => .inl hq
  | heartbeats =>
      simp only [Process.timerStep, htimer] at hp ⊢
      exact h.keep hnd hnil hp rfl rfl rfl (.sendHeartbeats _ _) rfl fun _ q hq => .inl hq
  | candidacy =>
      simp only [Process.timerStep, htimer] at hp ⊢
      exact h.keep hnd hnil hp rfl rfl rfl (.becomeCandidate _ _) rfl fun _ q hq => .inl hq
  | election =>
      simp only [Process.timerStep, htimer] at hp ⊢
      refine h.keep hnd hnil hp rfl rfl rfl (.refl _) rfl fun _ q hq => ?_
      refine (List.mem_append.mp hq).symm.imp_right fun hq => ?_
      obtain ⟨peer, -, rfl⟩ := List.mem_map.mp hq
      trivial
  | leadership =>
      simp only [Process.timerStep, htimer] at hp ⊢
      have hn := RaftNode.becomeLeader_eq ⟨id, peers⟩ (c.procs id).node
      refine h.quiet hnd hnil hp rfl rfl rfl (by rw [hn]; rfl) (by rw [hn]; rfl) (by rw [hn]; rfl) fun b hle hbl hmir =>
        ⟨b, .refl b, rfl, hmir, ?_, fun q hq => .inl hq⟩
      exact (h.accounts id).becomeLeader h.mirror.inv hle (by rw [hbl]) (h.mirror.node id).log
        (v := (c.node id).votesReceived) rfl rfl

theorem Sound.requestVoteResponse (h : Sound peers a c) (hnd : peers.Nodup) (hnil : [] ∉ peers) {src : Bytes}
    {resp : RequestVoteResponse} {n : RaftNode} (hn : (c.procs id).node.handleRequestVoteResponse ⟨id, peers⟩ resp = n)
    (hp : ProcStep peers id (c.procs id) c.net (.deliver ⟨src, id, .requestVoteResponse resp⟩)
      { c.procs id with node := n } (c.net.erase ⟨src, id, .requestVoteResponse resp⟩)) :
    ∃ b, a.Le b ∧ Sound peers b (c.put id { c.procs id with node := n }
      (c.net.erase ⟨src, id, .requestVoteResponse resp⟩)) := by
  rcases hn ▸ Keeps.handleRequestVoteResponse ⟨id, peers⟩ (c.procs id).node resp with hk | ⟨votes, rfl⟩
  · exact h.keep hnd hnil hp rfl rfl rfl hk rfl (backed_erase _)
  · have he := RaftNode.becomeLeader_eq ⟨id, peers⟩ { (c.procs id).node with votesReceived := votes }
    refine h.quiet hnd hnil hp rfl rfl rfl (by rw [he]; rfl) (by rw [he]; rfl) (by rw [he]; rfl) fun b hle hbl hmir =>
      ⟨b, .refl b, rfl, hmir, ?_, backed_erase _ b⟩
    exact (h.accounts id).becomeLeader h.mirror.inv hle (by rw [hbl]) (h.mirror.node id).log rfl rfl

/-- A follower cuts off what its leader does not have, and none of what is committed. -/
theorem Sound.truncate (h : Sound peers a c) (hnd : peers.Nodup) (hnil : [] ∉ peers) {src : Bytes}
    {req : AppendEntriesRequest} (hmem : ⟨src, id, .appendEntries req⟩ ∈ c.net)
    (hterm : (c.node id).currentTerm ≤ req.term) {e : LogEntry}
    (he : (c.node id).getLogEntry req.prevLogIndex = some e) (hne : e.term ≠ req.prevLogTerm) {log : List LogEntry}
    (hlog : RaftNode.popFrom (c.node id).log req.prevLogIndex = some log) {n : RaftNode}
    (hn : n = (({ (c.node id).follow req.leaderId req.term with log := log }).reject (back log).index).persistState)
    (hp : ProcStep peers id (c.procs id) c.net act { c.procs id with node := n }
      (⟨id, src, .appendEntriesResponse n.aeResp⟩ :: c.net.erase ⟨src, id, .appendEntries req⟩)) :
    ∃ b, a.Le b ∧ Sound peers b (c.put id { c.procs id with node := n }
      (⟨id, src, .appendEntriesResponse n.aeResp⟩ :: c.net.erase ⟨src, id, .appendEntries req⟩)) := by
  subst hn
  obtain ⟨hsrc, ⟨L, hcut, -, -⟩, -⟩ := h.backed _ hmem
  obtain ⟨k, hk, hs, hek, hholds⟩ := (h.mirror.node id).truncation hcut he hne hlog
  obtain ⟨hcommit, f, hf, hef⟩ := h.truncation_above hmem hterm hk hek hne
  have hcur : ((c.node id).follow req.leaderId req.term).currentTerm = req.term :=
    (RaftNode.catchUp_currentTerm _).trans (max_eq_right hterm)
  have hconf : (settle a id ((c.node id).follow req.leaderId req.term)).Conflict id k := by
    rw [State.Conflict, show (settle a id ((c.node id).follow req.leaderId req.term)).term id = req.term by
      simp [settle, hcur]]
    refine ⟨?_, e, f, hek, hf, hef⟩
    rw [settle, hsrc]
    simp
  obtain ⟨b, hle, hbl, -, -, hmir⟩ := h.mirror.truncate hnd hnil hp
    ((Steady.follow _ req.leaderId req.term).congr rfl rfl rfl rfl rfl) rfl hholds hs (.inr hconf)
    (fair_reply fun _ => trivial)
  refine ⟨b, hle, h.put hle (fun w hw => by rw [hbl]; simp [hw]) hmir ?_ (backed_reply fun hok => by cases hok)⟩
  have hk := Keeps.follow (c.node id) req.leaderId req.term
  refine (h.accounts id).follower h.mirror.inv hle ?_ hk.term hk.commit hk.applied hk.upper hk.snapIndex rfl
    fun hl => by cases hl
  rw [hbl, Function.update_self]
  exact List.take_prefix_take_left hcommit

theorem Sound.appendEntries (h : Sound peers a c) (hnd : peers.Nodup) (hnil : [] ∉ peers) {src : Bytes}
    {req : AppendEntriesRequest} (hmem : ⟨src, id, .appendEntries req⟩ ∈ c.net)
    (haccept : acceptsMatch c (.deliver ⟨src, id, .appendEntries req⟩) = true) {n : RaftNode}
    (hn : (c.procs id).node.handleAppendEntries req.leaderId req = some n)
    (hp : ProcStep peers id (c.procs id) c.net (.deliver ⟨src, id, .appendEntries req⟩) { c.procs id with node := n }
      (⟨id, src, .appendEntriesResponse n.aeResp⟩ :: c.net.erase ⟨src, id, .appendEntries req⟩)) :
    ∃ b, a.Le b ∧ Sound peers b (c.put id { c.procs id with node := n }
      (⟨id, src, .appendEntriesResponse n.aeResp⟩ :: c.net.erase ⟨src, id, .appendEntries req⟩)) := by
  cases RaftNode.handleAppendEntries_cases hn with
  | stale =>
      exact h.keep hnd hnil hp rfl rfl rfl ((Keeps.refl _).replying _) rfl fun _ =>
        backed_reply fun hok => by cases hok
  | reject =>
      exact h.keep hnd hnil hp rfl rfl rfl ((Keeps.follow _ _ _).replying _) rfl fun _ =>
        backed_reply fun hok => by cases hok
  | truncate hge hsnap hback e he hne log hlog => exact h.truncate hnd hnil hmem hge he hne hlog rfl hp
  | accept hge hsnap hback hcheck =>
      have hpass : (c.node id).passes req = true := by
        simp only [RaftNode.passes, Bool.and_eq_true, decide_eq_true_eq, Option.all_eq_true]
        exact ⟨⟨⟨hge, hsnap⟩, hback⟩, hcheck⟩
      have hends := of_decide_eq_true haccept hpass
      rw [Bool.or_eq_true, decide_eq_true_eq] at hends
      exact h.accept hnd hnil hmem hge hsnap hback hcheck hends hp rfl rfl rfl

theorem Sound.appendEntriesResponse (h : Sound peers a c) (hnd : peers.Nodup) (hnil : [] ∉ peers) {src : Bytes}
    {resp : AppendEntriesResponse} (hmem : ⟨src, id, .appendEntriesResponse resp⟩ ∈ c.net)
    (hcount : countsOwnTerm c (.deliver ⟨src, id, .appendEntriesResponse resp⟩) = true) (hid : id ∈ peers)
    {n : RaftNode} (hn : (c.procs id).node.handleAppendEntriesResponse ⟨id, peers⟩ src resp = n)
    (hp : ProcStep peers id (c.procs id) c.net (.deliver ⟨src, id, .appendEntriesResponse resp⟩)
      { c.procs id with node := n } (c.net.erase ⟨src, id, .appendEntriesResponse resp⟩)) :
    ∃ b, a.Le b ∧ Sound peers b (c.put id { c.procs id with node := n }
      (c.net.erase ⟨src, id, .appendEntriesResponse resp⟩)) := by
  have hacc := h.accounts id
  have ho := hn ▸ RaftNode.handleAppendEntriesResponse_cases ⟨id, peers⟩ (c.procs id).node src resp
  cases ho with
  | adopt ht => exact h.keep hnd hnil hp rfl rfl rfl (.adoptTerm ht) rfl (backed_erase _)
  | ignore => exact h.keep hnd hnil hp rfl rfl rfl (.refl _) rfl (backed_erase _)
  | matched ht hstate hok =>
      obtain ⟨hack, hlen⟩ := h.matched_le hmem hcount hstate hok ht
      obtain ⟨hl, hs, ht⟩ := RaftNode.advanceCommitIndex_logs ⟨id, peers⟩ { (c.procs id).node with
        matchIndex := Function.update (c.procs id).node.matchIndex src (some resp.matchIndex)
        nextIndex := Function.update (c.procs id).node.nextIndex src (some (resp.matchIndex + 1)) }
      refine h.quiet hnd hnil hp rfl rfl rfl hl hs ht fun b hle hbl hmir => ?_
      obtain ⟨d, hle', hdl, hmir', hd⟩ := hmir.advance hid hnd
        (((hacc.setNext hlen).setMatch hack).mono h.mirror.inv hle (by rw [hbl])) hstate
        (by rw [put_procs]) (by rw [put_procs])
      rw [put_procs] at hd
      exact ⟨d, hle', hdl, hmir', hd, backed_erase _ d⟩
  | retry ht hstate hlt =>
      obtain ⟨hsrc, -, hne, -⟩ := h.mirror.elect.sealed _ hmem
      have hother : src ∈ (RaftConfig.mk id peers).others := List.mem_filter.mpr ⟨hsrc, decide_eq_true hne⟩
      have hsnap := hacc.snap.trans (hacc.settled.length_le h.mirror.inv)
      obtain ⟨j, hj⟩ := (h.mirror.stocked id).leader hstate src hother
      have hj : (c.procs id).node.nextIndex src = some (j + 1) := hj
      have hnext := hacc.next hstate src hother j hj
      have hmatch : resp.matchIndex ≤ j := by
        rw [hj, Option.getD_some] at hlt
        omega
      have he : max (max (resp.matchIndex + 1) ((c.procs id).node.snapshotLastIndex + 1)) 1 =
          max resp.matchIndex (c.procs id).node.snapshotLastIndex + 1 := by omega
      rw [he] at hp ⊢
      exact h.quiet hnd hnil hp rfl rfl rfl rfl rfl rfl fun b hle hbl hmir => ⟨b, .refl b, rfl, hmir,
        (hacc.setNext (max_le (hmatch.trans hnext) hsnap)).mono h.mirror.inv hle (by rw [hbl]), backed_erase _ b⟩

theorem Sound.advance (h : Sound peers a c) (hnd : peers.Nodup) (hnil : [] ∉ peers) (hid : id ∈ peers)
    (hlead : (c.node id).state = .leader) {k : Nat} {expired : Bool} {calls : List ProposeCall}
    (hp : ProcStep peers id (c.procs id) c.net (.proposeNext id k expired)
      { c.procs id with node := (c.procs id).node.advanceCommitIndex ⟨id, peers⟩, calls := calls } c.net) :
    ∃ b, a.Le b ∧ Sound peers b (c.put id
      { c.procs id with node := (c.procs id).node.advanceCommitIndex ⟨id, peers⟩, calls := calls } c.net) := by
  obtain ⟨hl, hs, ht⟩ := RaftNode.advanceCommitIndex_logs ⟨id, peers⟩ (c.procs id).node
  refine h.quiet hnd hnil hp rfl rfl rfl hl hs ht fun b hle hbl hmir => ?_
  obtain ⟨d, hle', hdl, hmir', hd⟩ := hmir.advance hid hnd (q := { c.procs id with calls := calls })
    ((h.accounts id).keep h.mirror.inv hle (by rw [hbl]) (.refl _) rfl) hlead (by rw [put_procs]) (by rw [put_procs])
  rw [put_procs] at hd
  exact ⟨d, hle', hdl, hmir', hd, fun q hq => .inl hq⟩

theorem Sound.snapshot (h : Sound peers a c) (hnd : peers.Nodup) (hnil : [] ∉ peers) {data : Bytes}
    (hp : ProcStep peers id (c.procs id) c.net (.snapshot id data) p' net') :
    ∃ b, a.Le b ∧ Sound peers b (c.put id p' net') := by
  have hstep := hp
  have hm := h.mirror.node id
  have hacc := h.accounts id
  have hlen := hacc.settled.length_le h.mirror.inv
  cases hp with
  | capture _ hid snap hnone hsnap =>
      refine h.quiet hnd hnil hstep rfl rfl rfl rfl rfl rfl fun b hle hbl hmir =>
        ⟨b, .refl b, rfl, hmir, ?_, fun q hq => .inl hq⟩
      have hk : Accounts peers b id (c.procs id) := hacc.mono h.mirror.inv hle (by rw [hbl])
      refine ⟨hk.settled, hk.applied, hk.upper, hk.snap, fun s hs => ?_, hk.next, hk.matched⟩
      obtain rfl := Option.some.inj hs
      rw [hbl]
      exact hacc.capture hm hlen hsnap
  | write _ snap hsnap =>
      refine h.quiet hnd hnil hstep rfl rfl rfl rfl rfl rfl fun b hle hbl hmir =>
        ⟨b, .refl b, rfl, hmir, ?_, fun q hq => .inl hq⟩
      have hk : Accounts peers b id (c.procs id) := hacc.mono h.mirror.inv hle (by rw [hbl])
      refine ⟨hk.settled, hk.applied, hk.upper, hk.snap, fun s hs => ?_, hk.next, hk.matched⟩
      obtain rfl := Option.some.inj hs
      exact hk.pending ⟨snap, false⟩ hsnap
  | trim _ hfree snap hsnap =>
      obtain ⟨h1, h2, h3⟩ := hacc.pending _ hsnap
      obtain ⟨hle, hmir⟩ := h.mirror.settled hnd hnil hstep ((Steady.refl _).congr rfl rfl rfl rfl rfl)
        (hm.log.trim h1 (h2.trans hlen)) h3 fun q hq => .inl hq
      refine ⟨_, hle, h.put hle (fun _ _ => rfl) hmir ?_ fun q hq => .inl hq⟩
      have hk : Accounts peers (settle a id _) id (c.procs id) := hacc.mono h.mirror.inv hle rfl
      exact ⟨hk.settled, hk.applied, hk.upper, h2, (fun _ hs => by cases hs), hk.next, hk.matched⟩

/-- A step of the cluster is matched by steps of the protocol. -/
theorem Sound.step (h : Sound peers a c) (hnd : peers.Nodup) (hnil : [] ∉ peers) (hcrash : noCrash act = true)
    (hg : sound peers c act = true) (hp : ProcStep peers id (c.procs id) c.net act p' net') :
    ∃ b, a.Le b ∧ Sound peers b (c.put id p' net') := by
  simp only [sound, Bool.and_eq_true] at hg
  obtain ⟨⟨⟨⟨⟨⟨haccept, hcount⟩, hsender⟩, hadvance⟩, hsend⟩, hvote⟩, hpropose⟩ := hg
  have hstep := hp
  cases hp with
  | timer => exact h.timer hnd hnil hstep
  | heartbeat peer rest hpeers => exact h.heartbeat hnd hnil hstep rfl rfl hpeers hsend (of_decide_eq_true hsender)
  | propose command hid hfree hstate =>
      exact h.propose hnd hnil hstep rfl hstate (of_decide_eq_true hpropose hstate)
  | refuse | wait => exact h.keep hnd hnil hstep rfl rfl rfl (.refl _) rfl fun _ q hq => .inl hq
  | send => exact h.keep hnd hnil hstep rfl rfl rfl (.sendHeartbeats _ _) rfl fun _ q hq => .inl hq
  | advance k expired hid hfree call hcall hpc =>
      have hlead : (c.node id).state = .leader := of_decide_eq_true hadvance (by rw [hcall]; simp [hpc])
      exact h.advance hnd hnil hid hlead hstep
  | capture | write | trim => exact h.snapshot hnd hnil hstep
  | requestVote =>
      exact h.keep hnd hnil hstep rfl rfl hvote (.handleRequestVote _ _) rfl fun _ => backed_reply (by trivial)
  | requestVoteResponse => exact h.requestVoteResponse hnd hnil rfl hstep
  | appendEntries src req hmem hid hfree n hn => exact h.appendEntries hnd hnil hmem haccept hn hstep
  | appendEntriesResponse src resp hmem hid => exact h.appendEntriesResponse hnd hnil hmem hcount hid rfl hstep
  | lose | installSnapshotResponse => exact h.keep hnd hnil hstep rfl rfl rfl (.refl _) rfl (backed_erase _)
  | installSnapshot src req hmem => exact absurd rfl (h.mirror.no_install _ hmem req)
  | restart | crashHandling => cases hcrash

/-- Runs without crashes whose steps are all sound. -/
abbrev SoundRun (peers : List Bytes) : Cluster → List Action → Cluster → Prop :=
  Runs.Run (step peers) fun c act => (noCrash act && sound peers c act) = true

theorem Sound.run (h : Sound peers a c) (hnd : peers.Nodup) (hnil : [] ∉ peers) {acts : List Action} {c' : Cluster}
    (hr : SoundRun peers c acts c') : ∃ b, a.Le b ∧ Sound peers b c' := by
  refine Runs.Run.history State.Le.refl State.Le.trans (I := Sound peers) (fun a c act c' hi hg hs => ?_) h hr
  obtain ⟨id, p', net', rfl, hp⟩ := step_cases hs
  obtain ⟨hcrash, hg⟩ := Bool.and_eq_true_iff.mp hg
  exact hi.step hnd hnil hcrash hg hp

end MiniStorage.Raft
