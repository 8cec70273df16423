import MiniStorage.Raft.Ordered

namespace MiniStorage.Raft

open RaftNode

variable {peers : List Bytes} {c : Cluster} {id : Bytes} {p p' : Process} {net net' : List Packet} {act : Action}
  {acts : List Action} {n : RaftNode} {log rest : List LogEntry} {e : LogEntry} {call : ProposeCall} {i t : Nat}

theorem find_of_isPrefix {M : List LogEntry} (hp : log <+: M) (h : log.find? (·.index = i) = some e) :
    M.find? (·.index = i) = some e := by
  obtain ⟨X, rfl⟩ := hp
  rw [List.find?_append, h]
  rfl

theorem find_popFrom (hpop : popFrom log t = some rest) (h : log.find? (·.index = i) = some e) (hi : i < t) :
    rest.find? (·.index = i) = some e := by
  obtain ⟨X, rfl, hX⟩ := popFrom_split hpop
  have hnone : X.find? (·.index = i) = none := List.find?_eq_none.mpr fun x hx => by
    have := hX x hx
    simp
    omega
  rwa [List.find?_append, hnone, Option.or_none] at h

theorem find_trimLog (hs : log = {} :: log.tail) (h : log.find? (·.index = i) = some e) (hi : t < i) :
    (trimLog log t).find? (·.index = i) = some e := by
  rw [hs] at h ⊢
  have hne : ¬ (({} : LogEntry).index = i) := by show ¬ 0 = i; omega
  rw [List.find?_cons_of_neg (by simpa using hne)] at h
  have htrim : trimLog ({} :: log.tail) t = {} :: log.tail.filter (t < ·.index) := rfl
  rw [htrim, List.find?_cons_of_neg (by simpa using hne), List.find?_filter, ← h]
  congr 1
  funext x
  rcases eq_or_ne x.index i with hx | hx
  · simp [hx, hi]
  · simp [hx]

/-- The entry was applied at its index, and nothing else was. -/
def Sole (n : RaftNode) (e : LogEntry) : Prop :=
  .applied e.index (some e) ∈ n.upper ∧ ∀ x, .applied e.index x ∈ n.upper → x = some e

/-- What a call that did not fail can rely on. -/
structure Truthful (n : RaftNode) (call : ProposeCall) : Prop where
  committed : call.entry.index ≤ n.commitIndex → Sole n call.entry
  pending : n.commitIndex < call.entry.index →
    n.getLogEntry call.entry.index = some call.entry ∧ call.pc ≠ .returned true

/-- A process whose calls can rely on what they see. -/
structure Orderly (p : Process) : Prop extends Ordered p where
  calls : ∀ call ∈ p.calls, call.pc ≠ .returned false → Truthful p.node call

theorem ProcStep.calls_cases (hp : ProcStep peers id p net act p' net') (h : call ∈ p'.calls) :
    (∃ old ∈ p.calls, old.entry = call.entry ∧ (call.pc ≠ .returned false → old.pc ≠ .returned false) ∧
      (call.pc = .returned true → old.pc = .returned true ∨ call.entry.index ≤ p.node.commitIndex)) ∨
    ∃ command, act = .propose id command ∧ p.node.state = .leader ∧
      p'.node = (p.node.propose ⟨id, peers⟩ command).1 ∧
      call = ⟨(p.node.propose ⟨id, peers⟩ command).2, .advance⟩ := by
  have hold (hcall : call ∈ p.calls) : ∃ old ∈ p.calls, old.entry = call.entry ∧
      (call.pc ≠ .returned false → old.pc ≠ .returned false) ∧
      (call.pc = .returned true → old.pc = .returned true ∨ call.entry.index ≤ p.node.commitIndex) :=
    ⟨call, hcall, rfl, fun hl => hl, .inl⟩
  cases hp with
  | timer => rw [Process.timerStep] at h; split at h <;> exact .inl (hold h)
  | propose command hid hfree hstate =>
      rcases List.mem_append.mp h with h | h
      · exact .inl (hold h)
      · exact .inr ⟨command, rfl, hstate, rfl, List.mem_singleton.mp h⟩
  | advance k expired hid hfree old hget hpc | send k expired hid hfree old hget hpc =>
      rcases List.mem_or_eq_of_mem_set h with h | rfl
      · exact .inl (hold h)
      · exact .inl ⟨old, List.mem_of_getElem? hget, rfl, fun _ => by rw [hpc]; simp, fun hr => by cases hr⟩
  | wait k expired old hget hpc =>
      rcases List.mem_or_eq_of_mem_set h with h | rfl
      · exact .inl (hold h)
      · refine .inl ⟨old, List.mem_of_getElem? hget, rfl, fun _ => by rw [hpc]; simp, fun hret => .inr ?_⟩
        simp only [Process.waitNext] at hret
        split at hret
        · next hle => exact hle
        · split at hret <;> cases hret
  | restart | crashHandling => cases h
  | _ => exact .inl (hold h)

/-- An entry that is looked up past the commit index is found again after a
step, unless the step is a truncation that takes it off. -/
theorem Ordered.step_find (h : Ordered p) (hp : ProcStep peers id p net act p' net') (hcrash : noCrash act = true)
    (hn : NoInstall net) (hi : p.node.commitIndex < i) (he : p.node.getLogEntry i = some e)
    (hkeep : ∀ src req, act = .deliver ⟨src, id, .appendEntries req⟩ → p.node.truncates req = true →
      i < req.prevLogIndex) : p'.node.getLogEntry i = some e := by
  rw [getLogEntry] at he ⊢
  cases hp.logChange with
  | same hlog => rw [hlog]; exact he
  | propose command hstate hn => rw [hn]; exact find_of_isPrefix (List.prefix_append _ _) he
  | trim data snap hsnap hn hnone =>
      have happ := h.counters.applied
      obtain ⟨-, hle⟩ := h.counters.pending _ hsnap
      have hle : snap.lastIncludedIndex ≤ p.node.lastApplied := hle
      rw [hn]
      exact find_trimLog h.intact.sentinel he (by omega)
  | truncate src req hmem hterm hsnap hback f hf hne log hlog hn =>
      rw [hn]
      exact find_popFrom hlog he (hkeep src req rfl (truncates_of hterm hsnap hback hf hne))
  | accept src req hmem hterm hsnap hback hprev hn =>
      rw [hn, acceptEntries_log]
      refine find_of_isPrefix (appendNew_grows _ _) ?_
      rw [follow, catchUp_log]
      exact he
  | install src req hmem => exact absurd rfl (hn _ hmem req)
  | restart | crashHandling => cases hcrash

theorem Ordered.step_call (h : Ordered p) (hp : ProcStep peers id p net act p' net') (hcrash : noCrash act = true)
    (hn : NoInstall net) {old : ProposeCall} (hold : Truthful p.node old) (he : old.entry = call.entry)
    (hret : call.pc = .returned true → old.pc = .returned true ∨ call.entry.index ≤ p.node.commitIndex)
    (hkeep : p.node.commitIndex < call.entry.index → p'.node.getLogEntry call.entry.index = some call.entry) :
    Truthful p'.node call := by
  have happ := h.counters.applied
  obtain ⟨hcomm, hpend⟩ := hold
  rw [he] at hcomm hpend
  have hstill (hlt : p.node.commitIndex < call.entry.index) : call.pc ≠ .returned true := fun hr =>
    (hret hr).elim (hpend hlt).2 (Nat.not_le.mpr hlt)
  cases hp.commitChange with
  | same hcommit happlied hupper =>
      refine ⟨fun hle => ?_, fun hlt => ?_⟩
      · rw [Sole, hupper]
        exact hcomm (hle.trans hcommit.le)
      · exact ⟨hkeep (hcommit.ge.trans_lt hlt), hstill (hcommit.ge.trans_lt hlt)⟩
  | commit k hk =>
      have hnew := hk.new
      refine ⟨fun hle => ?_, fun hlt => ?_⟩
      · rw [hk.commitIndex] at hle
        rw [Sole, hk.upper]
        simp only [List.mem_append, List.mem_map, List.mem_range'_1]
        rcases Nat.lt_or_ge p.node.commitIndex call.entry.index with hlt | hge
        · have hget := hkeep hlt
          refine ⟨.inr ⟨call.entry.index, by omega, by rw [hget]⟩, fun x hx => ?_⟩
          rcases hx with hx | ⟨i, hi, hx⟩
          · have := h.below _ _ hx
            omega
          · cases hx
            exact hget
        · obtain ⟨hmem, hsole⟩ := hcomm hge
          refine ⟨.inl hmem, fun x hx => ?_⟩
          rcases hx with hx | ⟨i, hi, hx⟩
          · exact hsole x hx
          · cases hx
            omega
      · rw [hk.commitIndex] at hlt
        exact ⟨hkeep (hnew.trans hlt), hstill (hnew.trans hlt)⟩
  | install src req hmem => exact absurd rfl (hn _ hmem req)
  | restart | crashHandling => cases hcrash

theorem Ordered.propose_call (h : Ordered p) (command : Bytes)
    (hcommit : p.node.commitIndex ≤ (back p.node.log).index) :
    Truthful (p.node.propose ⟨id, peers⟩ command).1 ⟨(p.node.propose ⟨id, peers⟩ command).2, .advance⟩ := by
  have hindex : (p.node.propose ⟨id, peers⟩ command).2.index = (back p.node.log).index + 1 := rfl
  have hc : (p.node.propose ⟨id, peers⟩ command).1.commitIndex = p.node.commitIndex := rfl
  refine ⟨fun hle => ?_, fun _ => ⟨?_, fun hr => by cases hr⟩⟩
  · rw [hindex, hc] at hle
    omega
  · have hlog : (p.node.propose ⟨id, peers⟩ command).1.log =
        p.node.log ++ [(p.node.propose ⟨id, peers⟩ command).2] := rfl
    have hnone : p.node.log.find? (·.index = (p.node.propose ⟨id, peers⟩ command).2.index) = none :=
      List.find?_eq_none.mpr fun x hx => by
        have := h.sorted.le_back hx
        simp
        omega
    rw [getLogEntry, hlog, List.find?_append, hnone, Option.none_or, List.find?_cons_of_pos (by simp)]

theorem Orderly.step (h : Orderly (c.procs id)) (hp : ProcStep peers id (c.procs id) c.net act p' net')
    (hn : NoInstall c.net) (hpropose : proposesAboveCommit c act = true) (hkeep : keepsPending c act = true) :
    Orderly p' := by
  refine ⟨h.toOrdered.step hp hn, fun call hcall hlive => ?_⟩
  cases hcrash : noCrash act with
  | false =>
      obtain ⟨n, rfl⟩ := hp.restarts hcrash
      cases hcall
  | true =>
      rcases hp.calls_cases hcall with ⟨old, hold, he, hl, hret⟩ | ⟨command, rfl, hstate, hn', rfl⟩
      · have htrue := h.calls old hold (hl hlive)
        refine h.toOrdered.step_call hp hcrash hn htrue he hret fun hlt => ?_
        rw [← he] at hlt ⊢
        obtain ⟨hget, hpc⟩ := htrue.pending hlt
        refine h.toOrdered.step_find hp hcrash hn hlt hget fun src req hact htrunc => ?_
        subst hact
        have hall := of_decide_eq_true hkeep htrunc
        have := List.all_eq_true.mp hall old hold
        exact of_decide_eq_true this (by simp [ProposeCall.pending, hpc, hl hlive, Cluster.node, hlt])
      · rw [hn']
        exact h.toOrdered.propose_call command (of_decide_eq_true hpropose hstate)

theorem Orderly.start : Orderly { node := RaftNode.start none none } :=
  ⟨.start, fun _ h => by cases h⟩

/-- Runs in which Propose appends past the commit index and no call loses its entry. -/
abbrev ProposeRun (peers : List Bytes) : Cluster → List Action → Cluster → Prop :=
  Runs.Run (step peers) fun c act => (proposesAboveCommit c act && keepsPending c act) = true

theorem ProposeRun.orderly (h : ProposeRun peers start acts c) : NoInstall c.net ∧ ∀ id, Orderly (c.procs id) := by
  apply run_forall (I := fun _ p => Orderly p) _ (fun _ hq => absurd hq List.not_mem_nil) (fun _ => .start) h
  intro c id act p' net' hi hn hg hp
  obtain ⟨hpropose, hkeep⟩ := Bool.and_eq_true_iff.mp hg
  exact hi.step hp hn hpropose hkeep

/-- A Propose call that returns committed = true has had its own entry committed
and applied at its index, and no other. -/
theorem propose_truthful (h : ProposeRun peers start acts c) (hcall : call ∈ (c.procs id).calls)
    (hret : call.pc = .returned true) :
    call.entry.index ≤ (c.node id).commitIndex ∧ Sole (c.node id) call.entry := by
  have htrue := (h.orderly.2 id).calls call hcall (by rw [hret]; simp)
  have hle : call.entry.index ≤ (c.procs id).node.commitIndex := by
    by_contra hlt
    exact (htrue.pending (by omega)).2 hret
  exact ⟨hle, htrue.committed hle⟩

/-- A call that waits while a follower takes its entry over. -/
theorem propose_truthful_trio : ∃ c : Cluster, ⟨⟨1, 1, [1]⟩, .returned true⟩ ∈ (c.procs Trio.a).calls ∧
    Sole (c.node Trio.a) ⟨1, 1, [1]⟩ := by
  obtain ⟨c, h, hp⟩ := Runs.exists_run_of_exec (step Trio.peers)
    (fun c act => (proposesAboveCommit c act && keepsPending c act) = true) start
    (Trio.election Trio.a Trio.b 1 0 0 ++ [.propose Trio.a [1], .proposeNext Trio.a 0 false,
      .proposeNext Trio.a 0 false, .heartbeat Trio.a, .heartbeat Trio.a, .proposeNext Trio.a 0 false] ++
      Trio.exchange Trio.a Trio.b ⟨1, Trio.a, 0, 0, [⟨1, 1, [1]⟩], 0⟩ 1 ++ [.proposeNext Trio.a 0 false])
    (fun c => ⟨⟨1, 1, [1]⟩, .returned true⟩ ∈ (c.procs Trio.a).calls) rfl
  have hcall := of_decide_eq_true hp
  exact ⟨c, hcall, (propose_truthful h hcall rfl).2⟩

/-- After a snapshot of its whole log a leader numbers on from 1, and the call takes the entry for committed. -/
theorem propose_untruthful : ∃ acts c call, Runs.Run (step Trio.peers) (fun _ _ => True) start acts c ∧
    call ∈ (c.procs Trio.a).calls ∧ call.pc = .returned true ∧ ¬ Sole (c.node Trio.a) call.entry := by
  obtain ⟨c, h, hp⟩ := Runs.exists_run_of_exec (step Trio.peers) (fun _ _ => True) start
    (Trio.election Trio.a Trio.b 1 0 0 ++ [.propose Trio.a [1]] ++ Trio.heartbeats Trio.a ++
      Trio.exchange Trio.a Trio.b ⟨1, Trio.a, 0, 0, [⟨1, 1, [1]⟩], 0⟩ 1 ++
      [.snapshot Trio.a [7], .snapshot Trio.a [7], .snapshot Trio.a [7], .propose Trio.a [2],
        .proposeNext Trio.a 1 false, .proposeNext Trio.a 1 false, .heartbeat Trio.a, .heartbeat Trio.a,
        .proposeNext Trio.a 1 false])
    (fun c => ⟨⟨1, 1, [2]⟩, .returned true⟩ ∈ (c.procs Trio.a).calls ∧
      (c.node Trio.a).upper = [.applied 1 (some ⟨1, 1, [1]⟩)]) rfl
  obtain ⟨hcall, hupper⟩ := of_decide_eq_true hp
  refine ⟨_, c, _, h, hcall, rfl, fun ⟨hmem, _⟩ => ?_⟩
  rw [hupper] at hmem
  exact absurd hmem (by decide)

end MiniStorage.Raft
