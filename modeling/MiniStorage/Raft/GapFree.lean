import MiniStorage.Raft.FullLog
import MiniStorage.Raft.Counters

namespace MiniStorage.Raft

open RaftNode

variable {peers : List Bytes} {c : Cluster} {id : Bytes} {p p' : Process} {net net' : List Packet} {act : Action}
  {acts : List Action} {n : RaftNode} {log L : List LogEntry} {events : List UpperEvent} {b s t i k l : Nat}
  {e : LogEntry}

/-- A log without a hole from a position within the snapshot on. -/
def Chain (log : List LogEntry) (s : Nat) : Prop := ∃ b ≤ s, ∃ L, Holds log b L

theorem Chain.start (s : Nat) : Chain [{}] s := ⟨0, Nat.zero_le s, [], .start⟩

theorem Chain.append_one (h : Chain log s) (he : e.index = (back log).index + 1) : Chain (log ++ [e]) s := by
  obtain ⟨b, hb, L, hL⟩ := h
  rcases hL.back_cases with ⟨hi, -⟩ | ⟨hlen, -, hback⟩
  · exact ⟨b, hb, _, hL.append_one (by omega)⟩
  · have hlog : log = [{}] := by rw [hL.eq, List.drop_eq_nil_of_le hlen.le]
    rw [hback] at he
    rw [hlog]
    exact ⟨0, Nat.zero_le s, _, Holds.start.append_one he⟩

theorem Chain.trim (h : Chain log s) (ht : s ≤ t) : Chain (trimLog log t) t := by
  obtain ⟨b, hb, L, hL⟩ := h
  rcases Nat.le_total t L.length with hle | hge
  · exact ⟨t, le_rfl, L, hL.trim (hb.trans ht) hle⟩
  · have hd := hL.numbered.drop b
    rw [Nat.zero_add] at hd
    have hf : ((L.drop b).filter fun e => t < e.index) = (L.drop b).filter fun e => t + 1 ≤ e.index := rfl
    have hnil : (L.drop b).drop (t - b) = [] := List.drop_eq_nil_of_le (by rw [List.length_drop]; omega)
    rw [trimLog, hL.eq, List.tail_cons, hf, hd.filter, hnil]
    exact .start t

theorem Chain.pop (h : Chain log s) {req : AppendEntriesRequest} (hreq : req.prevLogIndex = 0 → req.prevLogTerm = 0)
    (he : log.find? (·.index = req.prevLogIndex) = some e) (hne : e.term ≠ req.prevLogTerm) {rest : List LogEntry}
    (hrest : popFrom log req.prevLogIndex = some rest) : Chain rest s := by
  obtain ⟨b, hb, L, hL⟩ := h
  cases hp : req.prevLogIndex with
  | zero =>
      rw [hp, hL.find_zero] at he
      cases he
      exact absurd (hreq hp).symm hne
  | succ k =>
      rw [hp, hL.find_succ] at he
      split at he
      · next hbk =>
        obtain ⟨log', hpop, hholds⟩ := hL.pop hbk (List.getElem?_eq_some_iff.mp he).1.le
        rw [hp, hpop] at hrest
        cases hrest
        exact ⟨b, hb, _, hholds⟩
      · cases he

theorem Chain.appendNew (h : Chain log s) {entries : List LogEntry} (he : Numbered i entries) (hs : s ≤ i)
    (hi : i ≤ (back log).index) : Chain (appendNew log entries) s := by
  obtain ⟨b, hb, L, hL⟩ := h
  have hback := hL.back_index (hb.trans (hs.trans hi))
  exact ⟨b, hb, _, (hL.appendNew hback he (hi.trans hback.le)).1⟩

/-- The indices from 1 on, each applied once with its entry. -/
def Gapless (events : List UpperEvent) (k : Nat) : Prop :=
  ∃ L : List LogEntry, L.length = k ∧ Numbered 0 L ∧ events = L.map fun e => .applied e.index (some e)

theorem Holds.applied (h : Holds n.log b L) (hb : b ≤ l) (hk : k ≤ L.length) :
    ((List.range' (l + 1) (k - l)).map fun i => UpperEvent.applied i (n.getLogEntry i)) =
      ((L.take k).drop l).map fun e => .applied e.index (some e) := by
  apply List.ext_getElem?
  intro i
  rw [List.getElem?_map, List.getElem?_map, List.getElem?_drop]
  rcases Nat.lt_or_ge i (k - l) with hlt | hge
  · obtain ⟨e, he⟩ : ∃ e, L[l + i]? = some e := ⟨_, List.getElem?_eq_getElem (by omega)⟩
    have hi := h.numbered _ e he
    rw [List.getElem?_range' hlt, List.getElem?_take_of_lt (by omega), he]
    show some (UpperEvent.applied (l + 1 + 1 * i) (n.log.find? (·.index = l + 1 + 1 * i))) = _
    rw [show l + 1 + 1 * i = l + i + 1 by omega, h.find_succ, if_pos (by omega), he]
    simp [hi]
  · rw [List.getElem?_eq_none (by simpa using hge), List.getElem?_eq_none (by rw [List.length_take]; omega)]
    rfl

theorem Gapless.apply (hg : Gapless events l) (h : Holds n.log b L) (hb : b ≤ l) (hk : k ≤ L.length) :
    Gapless (events ++ (List.range' (l + 1) (k - l)).map fun i => .applied i (n.getLogEntry i)) (max l k) := by
  obtain ⟨M, hM, hnum, rfl⟩ := hg
  refine ⟨M ++ (L.take k).drop l, ?_, hnum.append ?_, ?_⟩
  · rw [List.length_append, List.length_drop, List.length_take]
    omega
  · rw [hM]
    exact (h.numbered.of_isPrefix (List.take_prefix k L)).drop l
  · rw [List.map_append, h.applied hb hk]

/-- A node whose log and applied entries leave nothing out. -/
structure GapFree (p : Process) : Prop where
  log : Chain p.node.log p.node.snapshotLastIndex
  zero : p.node.snapshotLastIndex = 0 → p.node.snapshotLastTerm = 0
  upper : Gapless p.node.upper p.node.lastApplied

/-- A request whose entries follow its previous one. -/
def Chunk (q : Packet) : Prop :=
  match q.msg with
  | .appendEntries req => Numbered req.prevLogIndex req.entries ∧ (req.prevLogIndex = 0 → req.prevLogTerm = 0)
  | .installSnapshot _ => False
  | _ => True

theorem GapFree.step_log (h : GapFree p) (hcount : Counters p) (hp : ProcStep peers id p net act p' net')
    (hcrash : noCrash act = true) (hn : NoInstall net) (hc : ∀ q ∈ net, Chunk q) :
    Chain p'.node.log p'.node.snapshotLastIndex ∧
      (p'.node.snapshotLastIndex = 0 → p'.node.snapshotLastTerm = 0) ∧
      p'.node.snapshotLastIndex ≤ p.node.lastApplied := by
  cases hp.logChange with
  | same hlog hsnap hterm =>
      rw [hlog, hsnap, hterm]
      exact ⟨h.log, h.zero, hcount.snap⟩
  | propose command hstate hn =>
      rw [hn]
      exact ⟨h.log.append_one rfl, h.zero, hcount.snap⟩
  | trim data snap hsnap hn hnone =>
      obtain ⟨hlt, hle⟩ := hcount.pending _ hsnap
      rw [hn]
      exact ⟨h.log.trim hlt.le, fun h0 => absurd h0 (Nat.ne_zero_of_lt hlt), hle⟩
  | truncate src req hmem hterm hsnap hback e he hne log hlog hn =>
      obtain ⟨-, hreq⟩ := hc _ hmem
      rw [hn]
      refine ⟨?_, ?_, ?_⟩
      · show Chain log (p.node.catchUp req.term).snapshotLastIndex
        rw [catchUp_snapshotLastIndex]
        exact h.log.pop hreq he hne hlog
      · simpa [persistState, reject, follow] using h.zero
      · simpa [persistState, reject, follow] using hcount.snap
  | accept src req hmem hterm hsnap hback hprev hn =>
      obtain ⟨hnum, -⟩ := hc _ hmem
      have hterm' : (p.node.follow req.leaderId req.term).snapshotLastTerm = p.node.snapshotLastTerm :=
        catchUp_snapshotLastTerm _
      rw [hn, acceptEntries_log, acceptEntries_snapshotLastIndex, acceptEntries_snapshotLastTerm, follow_log,
        follow_snapshotLastIndex, hterm']
      exact ⟨h.log.appendNew hnum hsnap hback, h.zero, hcount.snap⟩
  | install src req hmem => exact absurd rfl (hn _ hmem req)
  | restart | crashHandling => cases hcrash

theorem GapFree.step (h : GapFree p) (hcount : Counters p) (hp : ProcStep peers id p net act p' net')
    (hcrash : noCrash act = true) (hn : NoInstall net) (hc : ∀ q ∈ net, Chunk q) : GapFree p' := by
  obtain ⟨hlog, hzero, hsnap⟩ := h.step_log hcount hp hcrash hn hc
  refine ⟨hlog, hzero, ?_⟩
  cases hp.commitChange with
  | same hcommit happlied hupper =>
      rw [happlied, hupper]
      exact h.upper
  | commit k hk =>
      obtain ⟨b, hb, L, hL⟩ := hlog
      rw [hk.lastApplied, hk.upper]
      exact h.upper.apply hL (hb.trans hsnap) (hk.back.trans hL.back_le)
  | install src req hmem => exact absurd rfl (hn _ hmem req)
  | restart | crashHandling => cases hcrash

/-- What SendHeartbeats sends from its snapshot on has no hole. -/
theorem GapFree.chunk (h : GapFree p) (hs : p.node.Stocked ⟨id, peers⟩) {peer : Bytes} (hpeer : peer ∈ p.node.sending)
    (habove : p.node.snapshotLastIndex ≤ (p.node.heartbeatRequest ⟨id, peers⟩ peer).prevLogIndex) :
    Chunk ⟨id, peer, .appendEntries (p.node.heartbeatRequest ⟨id, peers⟩ peer)⟩ := by
  obtain ⟨j, hj⟩ := hs.sending peer hpeer
  obtain ⟨b, hb, L, hL⟩ := h.log
  rw [heartbeatRequest_eq _ hj] at habove ⊢
  have habove : p.node.snapshotLastIndex ≤ j := habove
  refine ⟨?_, fun h0 => ?_⟩
  · have hd := hL.numbered.drop j
    rw [Nat.zero_add] at hd
    rwa [hL.filter, max_eq_right (hb.trans habove)]
  · have h0 : j = 0 := h0
    have hs : p.node.snapshotLastIndex = 0 := by omega
    have hterm := prevLogTerm_snapshot p.node
    rw [hs] at hterm
    rw [h0, hterm]
    exact h.zero hs

/-- A cluster in which no committed index is left out anywhere. -/
structure NoGaps (peers : List Bytes) (c : Cluster) : Prop where
  free : ∀ id, GapFree (c.procs id)
  counters : ∀ id, Counters (c.procs id)
  stocked : ∀ id, (c.node id).Stocked ⟨id, peers⟩
  noInstall : NoInstall c.net
  chunk : ∀ q ∈ c.net, Chunk q

theorem NoGaps.start (peers : List Bytes) : NoGaps peers start where
  free _ := ⟨.start 0, fun _ => rfl, [], rfl, .nil, rfl⟩
  counters _ := ⟨rfl, le_rfl, nofun⟩
  stocked _ := ⟨nofun, nofun⟩
  noInstall _ h := by cases h
  chunk _ h := by cases h

theorem NoGaps.step (h : NoGaps peers c) (hcrash : noCrash act = true) (hsend : sendsAboveSnapshot peers c act = true)
    (hp : ProcStep peers id (c.procs id) c.net act p' net') : NoGaps peers (c.put id p' net') where
  free := put_cases (P := fun _ p => GapFree p) c net' ((h.free id).step (h.counters id) hp hcrash h.noInstall h.chunk)
    fun w _ => h.free w
  counters := put_cases (P := fun _ p => Counters p) c net' ((h.counters id).step hp h.noInstall) fun w _ =>
    h.counters w
  stocked := put_cases (P := fun w p => p.node.Stocked ⟨w, peers⟩) c net' (hp.stocked (h.stocked id))
    fun w _ => h.stocked w
  noInstall := hp.noInstall h.noInstall
  chunk q hq := by
    rcases hp.sends hq with hq | ⟨peer, rest, rfl, hpeer, rfl⟩ | ⟨r, hr⟩ | ⟨r, hr⟩ | ⟨r, hr⟩ | ⟨src, req, hmem⟩
    · exact h.chunk q hq
    · refine (h.free id).chunk (h.stocked id) (hpeer ▸ List.mem_cons_self) ?_
      rw [sendsAboveSnapshot, Cluster.node, hpeer] at hsend
      exact of_decide_eq_true hsend
    · rw [Chunk, hr]; trivial
    · rw [Chunk, hr]; trivial
    · rw [Chunk, hr]; trivial
    · exact absurd rfl (h.noInstall _ hmem req)

/-- Where SendHeartbeats stays above its snapshot, every node applies all it commits, index by index. -/
theorem gap_free (h : Runs.Run (step peers) (fun c act => (noCrash act && sendsAboveSnapshot peers c act) = true)
    start acts c) (id : Bytes) :
    (c.node id).lastApplied = (c.node id).commitIndex ∧ Gapless (c.node id).upper (c.node id).lastApplied := by
  suffices hi : NoGaps peers c from ⟨(hi.counters id).applied, (hi.free id).upper⟩
  refine Runs.Run.invariant (I := NoGaps peers) (fun c act c' hi hg hs => ?_) (.start peers) h
  obtain ⟨id, p', net', rfl, hp⟩ := step_cases hs
  obtain ⟨hcrash, hsend⟩ := Bool.and_eq_true_iff.mp hg
  exact hi.step hcrash hsend hp

/-- A follower applies two entries of a leader that has one more and a snapshot of the first. -/
theorem gap_free_trio : ∃ c : Cluster, (c.node Trio.b).commitIndex = 2 ∧
    Gapless (c.node Trio.b).upper (c.node Trio.b).lastApplied := by
  obtain ⟨c, h, hp⟩ := Runs.exists_run_of_exec (step Trio.peers)
    (fun c act => (noCrash act && sendsAboveSnapshot Trio.peers c act) = true) start
    (Trio.election Trio.a Trio.b 1 0 0 ++ [.propose Trio.a [1]] ++ Trio.heartbeats Trio.a ++
      Trio.exchange Trio.a Trio.b ⟨1, Trio.a, 0, 0, [⟨1, 1, [1]⟩], 0⟩ 1 ++
      Trio.exchange Trio.a Trio.c ⟨1, Trio.a, 0, 0, [⟨1, 1, [1]⟩], 0⟩ 1 ++ [.propose Trio.a [2]] ++
      [.snapshot Trio.a [7], .snapshot Trio.a [7], .snapshot Trio.a [7]] ++ Trio.heartbeats Trio.a ++
      Trio.exchange Trio.a Trio.c ⟨1, Trio.a, 1, 1, [⟨1, 2, [2]⟩], 1⟩ 2 ++
      [.deliver ⟨Trio.a, Trio.b, .appendEntries ⟨1, Trio.a, 1, 1, [⟨1, 2, [2]⟩], 1⟩⟩] ++ Trio.heartbeats Trio.a ++
      [.deliver ⟨Trio.a, Trio.b, .appendEntries ⟨1, Trio.a, 1, 1, [⟨1, 2, [2]⟩], 2⟩⟩])
    (fun c => (c.node Trio.b).commitIndex = 2) rfl
  exact ⟨c, of_decide_eq_true hp, (gap_free h Trio.b).2⟩

/-- A follower that has nothing takes over what a snapshot has left of a leader's log. -/
theorem applied_gap : ∃ acts c, Runs.Run (step Trio.peers) (fun _ act => noCrash act = true) start acts c ∧
    ¬ Gapless (c.node Trio.c).upper (c.node Trio.c).lastApplied := by
  obtain ⟨c, h, hp⟩ := Runs.exists_run_of_exec (step Trio.peers) (fun _ act => noCrash act = true) start
    (Trio.election Trio.a Trio.b 1 0 0 ++ [.propose Trio.a [1], .propose Trio.a [2]] ++ Trio.heartbeats Trio.a ++
      Trio.exchange Trio.a Trio.b ⟨1, Trio.a, 0, 0, [⟨1, 1, [1]⟩, ⟨1, 2, [2]⟩], 0⟩ 2 ++ [.propose Trio.a [3]] ++
      [.snapshot Trio.a [7], .snapshot Trio.a [7], .snapshot Trio.a [7]] ++ Trio.heartbeats Trio.a ++
      [.deliver ⟨Trio.a, Trio.c, .appendEntries ⟨1, Trio.a, 0, 0, [⟨1, 3, [3]⟩], 2⟩⟩])
    (fun c => (c.node Trio.c).upper = [.applied 1 none, .applied 2 none]) rfl
  refine ⟨_, c, h, fun ⟨L, _, _, hL⟩ => ?_⟩
  rw [of_decide_eq_true hp] at hL
  cases L with
  | nil => cases hL
  | cons e L => simp at hL

end MiniStorage.Raft
