import MiniStorage.Raft.Counters
import MiniStorage.Raft.Mirror

namespace MiniStorage.Raft

open Replication

variable {peers : List Bytes} {a b : Ghost} {c : Cluster} {id : Bytes} {p p' : Process} {net net' : List Packet}
  {act : Action}

/-- No node has taken or is taking a snapshot. -/
def Unsnapped (c : Cluster) : Prop := ∀ id, (c.node id).snapshotLastIndex = 0 ∧ (c.procs id).snapshot = none

theorem Unsnapped.step (hc : Unsnapped c) (h : ProcStep peers id (c.procs id) c.net act p' net')
    (hcrash : noCrash act = true) (hsnap : noSnapshot act = true)
    (hinst : NoInstall c.net) : Unsnapped (c.put id p' net') := by
  have hi : p'.node.snapshotLastIndex = (c.node id).snapshotLastIndex := by
    rcases h.snapshot_index hcrash (h.not_install hinst) with hi | ⟨snap, hpending, -⟩
    · exact hi
    · rw [(hc id).2] at hpending; cases hpending
  exact put_cases (P := fun _ p => p.node.snapshotLastIndex = 0 ∧ p.snapshot = none) c net'
    ⟨hi.trans (hc id).1, (h.snapshot_call hcrash hsnap).trans (hc id).2⟩ fun w _ => hc w

theorem Unsnapped.guards (hc : Unsnapped c) (peers : List Bytes) (act : Action) :
    sendsAboveSnapshot peers c act = true ∧
    votesAboveSnapshot c act = true ∧ proposesAboveSnapshot c act = true := by
  have hz (w : Bytes) : (c.node w).snapshotLastIndex = 0 := (hc w).1
  cases act with
  | heartbeat w =>
      refine ⟨?_, rfl, rfl⟩
      rw [sendsAboveSnapshot, hz]
      cases (c.node w).sending.head? <;> simp
  | propose w command => exact ⟨rfl, rfl, by simp [proposesAboveSnapshot, hz]⟩
  | deliver q =>
      obtain ⟨src, dst, msg⟩ := q
      cases msg with
      | requestVote req => exact ⟨rfl, by simp [votesAboveSnapshot, RaftNode.covers, hz], rfl⟩
      | _ => exact ⟨rfl, rfl, rfl⟩
  | _ => exact ⟨rfl, rfl, rfl⟩

theorem Mirror.no_install (h : Mirror peers a c) : NoInstall c.net := by
  intro q hq req he
  have hf := h.fair q hq
  rw [Fair, he] at hf
  exact hf

theorem Mirror.accept_rooted (h : Mirror peers a c) {req : AppendEntriesRequest} {L : List LogEntry}
    (hcut : Cut L req) (hroot : Rooted LogEntry.term a.llog L)
    (hback : (back (c.node id).log).index = (a.log id).length) (hprev : req.prevLogIndex ≤ (a.log id).length)
    (hcheck : ∀ e, (c.node id).getLogEntry req.prevLogIndex = some e → e.term = req.prevLogTerm)
    (hends : req.entries.any (fun e => (back (c.node id).log).index < e.index) = true →
      (c.node id).endsIn req = true) :
    Rooted LogEntry.term a.llog (a.log id ++ L.drop (a.log id).length) := by
  have hlog := h.inv.matching.log id
  rcases Nat.lt_or_ge (a.log id).length L.length with hlt | hge
  · have hmem : L[(a.log id).length] ∈ req.entries := by
      rw [hcut.entries]
      refine List.mem_iff_getElem?.mpr ⟨(a.log id).length - req.prevLogIndex, ?_⟩
      rw [List.getElem?_drop, Nat.add_sub_cancel' hprev, List.getElem?_eq_getElem hlt]
    have hnum := hcut.numbered _ _ (List.getElem?_eq_getElem hlt)
    have hmore := hends (List.any_eq_true.mpr ⟨_, hmem, decide_eq_true (by omega)⟩)
    rw [append_drop_of_isPrefix ((h.node id).prefix_of_endsIn hlog hcut hroot hback hprev (hprev.trans hlt.le)
      hcheck hmore)]
    exact hroot
  · rw [List.drop_eq_nil_of_le hge, List.append_nil]
    exact hlog

/-- The guard for log matching. -/
def matchGuard (c : Cluster) (act : Action) : Bool := noCrash act && noSnapshot act && extendsMatch c act

/-- Log matching needs the ghost's logs only, so nothing is ever acknowledged in it. -/
theorem Mirror.step_logs (h : Mirror peers a c) (hack : ∀ v t, a.ack v t = 0) (hc : Unsnapped c)
    (hnd : peers.Nodup) (hnil : [] ∉ peers) (hg : matchGuard c act = true)
    (hp : ProcStep peers id (c.procs id) c.net act p' net') :
    ∃ b, (∀ v t, b.ack v t = 0) ∧ Mirror peers b (c.put id p' net') := by
  simp only [matchGuard, Bool.and_eq_true] at hg
  obtain ⟨⟨hcrash, hnosnap⟩, hext⟩ := hg
  have hm := h.node id
  have hs : (c.node id).snapshotLastIndex = 0 := (hc id).1
  have hback : (back (c.node id).log).index = (a.log id).length := hm.log.back_index (by omega)
  cases hp.logChange with
  | same hlog hsnap hterm =>
      obtain ⟨hsend, hvote, -⟩ := hc.guards peers act
      obtain ⟨b, -, -, hb, -, hmir⟩ := h.quiet hnd hnil hp hlog hsnap hterm hcrash hsend hvote
      exact ⟨b, fun v t => by rw [hb]; exact hack v t, hmir⟩
  | propose command hstate hn =>
      obtain ⟨b, -, -, hb, -, hmir⟩ := h.propose hnd hnil hp hn rfl hstate hback
      exact ⟨b, fun v t => by rw [hb]; exact hack v t, hmir⟩
  | trim => cases hnosnap
  | truncate src req hmem hterm hsnap hprev e he hne log hlog hn =>
      obtain ⟨L, hcut, -, -⟩ := h.fair _ hmem
      obtain ⟨k, -, hk, -, hholds⟩ := hm.truncation hcut he hne hlog
      have hsteady : Steady peers id (c.node id) p'.node := by
        rw [hn]; exact (Steady.follow _ req.leaderId req.term).congr rfl rfl rfl rfl rfl
      obtain ⟨b, -, -, hb, -, hmir⟩ := h.truncate hnd hnil hp hsteady hn hholds hk (.inl (hack id))
        (fair_reply fun _ => trivial)
      exact ⟨b, fun v t => by rw [hb]; exact hack v t, hmir⟩
  | accept src req hmem hterm hsnap hprev hcheck hn =>
      obtain ⟨L, hcut, hroot, hle⟩ := h.fair _ hmem
      have hlen : req.prevLogIndex ≤ (a.log id).length := hprev.trans hback.le
      have hpass : (c.node id).passes req = true := by
        simp only [RaftNode.passes, Bool.and_eq_true, decide_eq_true_eq, Option.all_eq_true]
        exact ⟨⟨⟨hterm, hsnap⟩, hprev⟩, hcheck⟩
      have hends := h.accept_rooted hcut hroot hback hlen hcheck fun hmore =>
        of_decide_eq_true hext (by rw [hpass, hmore]; rfl)
      obtain ⟨b, -, -, hb, -, -, hmir⟩ := h.accept hnd hnil hcut hle hp (hn ▸ .acceptEntries _ _ _) hn hterm
        hback hlen hends (fair_reply fun _ => trivial)
      exact ⟨b, fun v t => by rw [hb]; exact hack v t, hmir⟩
  | install src req hmem => exact absurd rfl (h.no_install _ hmem req)
  | restart | crashHandling => cases hcrash

/-- Entries of two logs with the same index and term are the same, and so are the logs below them. -/
def LogsMatch (c : Cluster) : Prop :=
  ∀ x y, ∀ e ∈ (c.node x).log, ∀ f ∈ (c.node y).log, e.index = f.index → e.term = f.term →
    e.command = f.command ∧ ∀ i < e.index, (c.node x).getLogEntry i = (c.node y).getLogEntry i

theorem Mirror.logsMatch (h : Mirror peers a c) (hc : Unsnapped c) : LogsMatch c := by
  intro x y e he f hf hi ht
  have hx := (h.node x).log
  have hy := (h.node y).log
  rw [(hc x).1] at hx
  rw [(hc y).1] at hy
  rw [hx.eq, List.drop_zero, List.mem_cons, List.mem_iff_getElem?] at he
  rw [hy.eq, List.drop_zero, List.mem_cons, List.mem_iff_getElem?] at hf
  rcases he with rfl | ⟨k, hk⟩
  · rcases hf with rfl | ⟨j, hj⟩
    · exact ⟨rfl, fun i hlt => absurd hlt (Nat.not_lt_zero i)⟩
    · have := hy.numbered j f hj
      have hi : 0 = f.index := hi
      omega
  · have hke := hx.numbered k e hk
    rcases hf with rfl | ⟨j, hj⟩
    · have hi : e.index = 0 := hi
      omega
    · have hjf := hy.numbered j f hj
      obtain rfl : k = j := by omega
      have htake := (h.inv.matching.log x).matching (h.inv.matching.log y) hk hj ht
      have hget {i : Nat} (hle : i ≤ k) : (a.log x)[i]? = (a.log y)[i]? := by
        rw [← List.getElem?_take_of_lt (Nat.lt_succ_of_le hle), htake,
          List.getElem?_take_of_lt (Nat.lt_succ_of_le hle)]
      have hef : e = f := Option.some.inj (hk.symm.trans ((hget le_rfl).trans hj))
      refine ⟨congrArg LogEntry.command hef, fun i hlt => ?_⟩
      cases i with
      | zero => rw [RaftNode.getLogEntry, RaftNode.getLogEntry, hx.find_zero, hy.find_zero]
      | succ i =>
          rw [RaftNode.getLogEntry, RaftNode.getLogEntry, hx.find_succ, hy.find_succ, if_pos (Nat.zero_le i),
            if_pos (Nat.zero_le i), hget (by omega)]

theorem run_logs (hnd : peers.Nodup) (hnil : [] ∉ peers) {acts : List Action}
    (h : Runs.Run (step peers) (fun c act => matchGuard c act = true) start acts c) :
    ∃ a, Mirror peers a c ∧ Unsnapped c := by
  suffices hi : (∃ a, (∀ v t, a.ack v t = 0) ∧ Mirror peers a c) ∧ Unsnapped c by
    obtain ⟨⟨a, -, hm⟩, hc⟩ := hi
    exact ⟨a, hm, hc⟩
  refine Runs.Run.invariant (I := fun c => (∃ a : Ghost, (∀ v t, a.ack v t = 0) ∧ Mirror peers a c) ∧ Unsnapped c)
    (fun c act c' hi hg hs => ?_) ⟨⟨_, fun _ _ => rfl, .start peers⟩, fun _ => ⟨rfl, rfl⟩⟩ h
  obtain ⟨⟨a, hack, hm⟩, hc⟩ := hi
  obtain ⟨id, p', net', rfl, hp⟩ := step_cases hs
  have hg' := hg
  simp only [matchGuard, Bool.and_eq_true] at hg'
  exact ⟨hm.step_logs hack hc hnd hnil hg hp, hc.step hp hg'.1.1 hg'.1.2 hm.no_install⟩

theorem log_matching (hnd : peers.Nodup) (hnil : [] ∉ peers) {acts : List Action}
    (h : Runs.Run (step peers) (fun c act => matchGuard c act = true) start acts c) : LogsMatch c := by
  obtain ⟨a, hm, hc⟩ := run_logs hnd hnil h
  exact hm.logsMatch hc

/-- A leader replicates an entry to one follower. -/
theorem log_matching_trio : ∃ c,
    Runs.Run (step Trio.peers) (fun c act => matchGuard c act = true) start
      (Trio.election Trio.a Trio.b 1 0 0 ++ [.propose Trio.a [1], .timer Trio.a, .timer Trio.a,
        .heartbeat Trio.a, .deliver ⟨Trio.a, Trio.b, .appendEntries ⟨1, Trio.a, 0, 0, [⟨1, 1, [1]⟩], 0⟩⟩]) c ∧
    (c.node Trio.b).log = [{}, ⟨1, 1, [1]⟩] ∧ LogsMatch c := by
  obtain ⟨c, h, hp⟩ := Runs.exists_run_of_exec (step Trio.peers)
    (fun c act => matchGuard c act = true) start
    (Trio.election Trio.a Trio.b 1 0 0 ++ [.propose Trio.a [1], .timer Trio.a, .timer Trio.a,
      .heartbeat Trio.a, .deliver ⟨Trio.a, Trio.b, .appendEntries ⟨1, Trio.a, 0, 0, [⟨1, 1, [1]⟩], 0⟩⟩])
    (fun c => (c.node Trio.b).log = [{}, ⟨1, 1, [1]⟩]) rfl
  exact ⟨c, h, of_decide_eq_true hp, log_matching (by decide) (by decide) h⟩

/-- A follower keeps its own entry at 1 and takes the leader's entry at 2. -/
theorem logs_differ : ∃ acts c, Runs.Run (step Trio.peers)
    (fun _ act => (noCrash act && noSnapshot act) = true) start acts c ∧ ¬ LogsMatch c := by
  obtain ⟨c, h, hp⟩ := Runs.exists_run_of_exec (step Trio.peers)
    (fun _ act => (noCrash act && noSnapshot act) = true) start
    (Trio.election Trio.a Trio.b 1 0 0 ++ [.propose Trio.a [1]] ++ Trio.election Trio.b Trio.c 2 0 0 ++
      [.propose Trio.b [2], .propose Trio.b [3], .timer Trio.b, .timer Trio.b, .heartbeat Trio.b,
        .deliver ⟨Trio.b, Trio.a, .appendEntries ⟨2, Trio.b, 0, 0, [⟨2, 1, [2]⟩, ⟨2, 2, [3]⟩], 0⟩⟩])
    (fun c => (c.node Trio.a).log = [{}, ⟨1, 1, [1]⟩, ⟨2, 2, [3]⟩] ∧
      (c.node Trio.b).log = [{}, ⟨2, 1, [2]⟩, ⟨2, 2, [3]⟩]) rfl
  obtain ⟨ha, hb⟩ := of_decide_eq_true hp
  refine ⟨_, c, h, fun hm => ?_⟩
  have hget := (hm Trio.a Trio.b ⟨2, 2, [3]⟩ (by rw [ha]; decide) ⟨2, 2, [3]⟩ (by rw [hb]; decide) rfl rfl).2 1
    (by decide)
  rw [RaftNode.getLogEntry, RaftNode.getLogEntry, ha, hb] at hget
  exact absurd hget (by decide)

end MiniStorage.Raft
