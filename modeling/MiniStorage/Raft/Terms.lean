import MiniStorage.Raft.Elections
import MiniStorage.Raft.Ordered

namespace MiniStorage.Raft

open RaftNode

variable {peers : List Bytes} {c : Cluster} {id : Bytes} {p p' : Process} {net net' : List Packet} {act : Action}
  {acts : List Action} {n : RaftNode} {e : LogEntry}

/-- In term 0 a node follows, and its timer thread has not become a candidate. -/
def Seated (p : Process) : Prop :=
  0 < p.node.currentTerm ∨
    p.node.state = .follower ∧ (p.timer = .idle ∨ p.timer = .heartbeats ∨ p.timer = .candidacy)

theorem Seated.steady (h : Seated p) (hs : Steady peers id p.node p'.node) (ht : p'.timer = p.timer) : Seated p' := by
  have hle : p.node.currentTerm ≤ p'.node.currentTerm := by
    rcases hs.vote with ⟨heq, -⟩ | ⟨hlt, -⟩
    · exact heq.ge
    · exact hlt.le
  rcases h with h | ⟨hf, htimer⟩
  · exact .inl (h.trans_le hle)
  · rw [← ht] at htimer
    rcases hs.role with hr | ⟨-, hr, -⟩
    · exact .inr ⟨hr, htimer⟩
    · exact .inr ⟨hr.trans hf, htimer⟩

theorem Seated.lead (h : Seated p) (hl : p.node.state ≠ .follower) : 0 < p.node.currentTerm :=
  h.resolve_right fun hf => hl hf.1

theorem Seated.timerStep (h : Seated p) (hid : id ∈ peers) : Seated (p.timerStep ⟨id, peers⟩).1 := by
  -- past BecomeCandidate the term is not 0
  have hpast (ht : p.timer ≠ .idle) (ht' : p.timer ≠ .heartbeats) (ht'' : p.timer ≠ .candidacy) :
      0 < p.node.currentTerm := h.resolve_right fun hf => hf.2.elim ht fun hor => hor.elim ht' ht''
  rw [Process.timerStep]
  split
  · refine h.imp_right fun hf => ⟨hf.1, ?_⟩
    dsimp only
    split
    · exact .inr (.inl rfl)
    · exact .inr (.inr rfl)
  · have hs : Steady peers id p.node (p.node.sendHeartbeats ⟨id, peers⟩) := .sendHeartbeats _ hid
    have hsent : Seated { p with node := p.node.sendHeartbeats ⟨id, peers⟩ } := h.steady hs rfl
    exact hsent.imp_right fun hf => ⟨hf.1, .inl rfl⟩
  · exact .inl (Nat.succ_pos _)
  · next ht => exact .inl (hpast (by simp [ht]) (by simp [ht]) (by simp [ht]))
  · next ht => exact .inl (hpast (by simp [ht]) (by simp [ht]) (by simp [ht]))
  · next ht =>
    refine .inl ?_
    rw [becomeLeader_eq]
    exact hpast (by simp [ht]) (by simp [ht]) (by simp [ht])

theorem Seated.handleRequestVoteResponse (h : Seated p) (cfg : RaftConfig) (resp : RequestVoteResponse) :
    Seated { p with node := p.node.handleRequestVoteResponse cfg resp } := by
  have ho := handleRequestVoteResponse_cases cfg p.node resp
  generalize p.node.handleRequestVoteResponse cfg resp = m at ho ⊢
  cases ho with
  | adopt hlt => exact .inl (Nat.zero_lt_of_lt hlt)
  | ignore | count => exact h
  | win hterm hstate =>
      refine .inl ?_
      rw [becomeLeader_eq]
      exact h.lead (by rw [hstate]; decide)

theorem Seated.step (h : Seated p) (hp : ProcStep peers id p net act p' net') : Seated p' := by
  have hkeep {q : Process} (hs : Steady peers id p.node q.node) (ht : q.timer = p.timer) : Seated q := h.steady hs ht
  cases hp with
  | timer hid => exact h.timerStep hid
  | heartbeat | propose | refuse | wait | capture | write | trim | installSnapshotResponse | lose => exact h
  | advance => exact hkeep (.advanceCommitIndex (.refl _) _) rfl
  | send k expired hid => exact hkeep (.sendHeartbeats _ hid) rfl
  | requestVote src req =>
      have hc : Seated { p with node := p.node.catchUp req.term } := hkeep (.catchUp _ _) rfl
      have ho := handleRequestVote_cases p.node req
      generalize p.node.handleRequestVote req = r at ho ⊢
      cases ho with
      | stale => exact h
      | refuse | grant => exact hc
  | requestVoteResponse src resp => exact h.handleRequestVoteResponse _ resp
  | appendEntries src req hmem hid hfree n hn => exact hkeep (.handleAppendEntries hn) rfl
  | appendEntriesResponse => exact hkeep (.handleAppendEntriesResponse _ _ _ _) rfl
  | installSnapshot => exact hkeep (.handleInstallSnapshot _ _) rfl
  | restart | crashHandling => exact .inr ⟨restart_state _, .inl rfl⟩

/-- The sentinel alone is of term 0. -/
def Dated (log : List LogEntry) : Prop := ∀ e ∈ log, e = {} ∨ 0 < e.term

/-- No node has an entry of term 0, and none is on its way. -/
structure AllDated (c : Cluster) : Prop where
  intact : ∀ id, (c.node id).Intact
  seated : ∀ id, Seated (c.procs id)
  log : ∀ id, Dated (c.node id).log
  sent : ∀ q ∈ c.net, ∀ req, q.msg = .appendEntries req → Dated req.entries

theorem AllDated.start : AllDated start where
  intact _ := .start
  seated _ := .inr ⟨rfl, .inl rfl⟩
  log _ e h := .inl (List.mem_singleton.mp h)
  sent _ h := by cases h

theorem AllDated.step_log (h : AllDated c) (hn : NoInstall c.net) (hcrash : noCrash act = true)
    (hp : ProcStep peers id (c.procs id) c.net act p' net') : Dated p'.node.log := by
  have hlog : Dated (c.node id).log := h.log id
  cases hp.logChange with
  | same he => rw [he]; exact hlog
  | propose command hstate hn =>
      intro e he
      rw [hn] at he
      rcases List.mem_append.mp he with he | he
      · exact hlog e he
      · cases List.mem_singleton.mp he
        exact .inr ((h.seated id).lead (by rw [hstate]; decide))
  | trim data snap hsnap hn =>
      rw [hn]
      exact fun e he => hlog e ((trimLog_sublist (h.intact id).sentinel _).subset he)
  | truncate src req hmem hterm hsnap hback e he hne log hl hn =>
      rw [hn]
      exact fun e he => hlog e ((popFrom_isPrefix hl).1.subset he)
  | accept src req hmem hterm hsnap hback hprev hn =>
      intro e he
      rw [hn, acceptEntries_log, follow_log] at he
      exact (mem_appendNew he).elim (hlog e) (h.sent _ hmem req rfl e)
  | install src req hmem => exact absurd rfl (hn _ hmem req)
  | restart | crashHandling => cases hcrash

theorem AllDated.step (h : AllDated c) (hn : NoInstall c.net)
    (hp : ProcStep peers id (c.procs id) c.net act p' net') : AllDated (c.put id p' net') where
  intact := put_cases (P := fun _ p => p.node.Intact) c net' (hp.intact (h.intact id)) fun w _ => h.intact w
  seated := put_cases (P := fun _ p => Seated p) c net' ((h.seated id).step hp) fun w _ => h.seated w
  log := by
    refine put_cases (P := fun _ p => Dated p.node.log) c net' ?_ fun w _ => h.log w
    cases hcrash : noCrash act with
    | true => exact h.step_log hn hcrash hp
    | false =>
        have hi : (c.procs id).node.Intact := h.intact id
        cases hp with
        | restart => rw [hi.restart.2.2.1]; exact h.log id
        | crashHandling packet =>
            have hi' : ((c.procs id).node.adoptTerm packet.msg.term).Intact := .persistState hi.sentinel
            rw [hi'.restart.2.2.1]
            exact h.log id
        | _ => cases hcrash
  sent q hq := by
    rcases hp.sends hq with hq | ⟨peer, rest, rfl, hpeer, rfl⟩ | ⟨r, hr⟩ | ⟨r, hr⟩ | ⟨r, hr⟩ | ⟨src, req, hmem⟩
    · exact h.sent q hq
    · rintro req ⟨⟩ e he
      exact h.log id e (List.mem_filter.mp he).1
    · rw [hr]; exact fun _ h => nomatch h
    · rw [hr]; exact fun _ h => nomatch h
    · rw [hr]; exact fun _ h => nomatch h
    · exact absurd rfl (hn _ hmem req)

theorem run_dated {guard : Cluster → Action → Prop} (h : Runs.Run (step peers) guard start acts c) : AllDated c := by
  suffices hi : NoInstall c.net ∧ AllDated c from hi.2
  refine Runs.Run.invariant (I := fun c => NoInstall c.net ∧ AllDated c) (fun c act c' hi _ hs => ?_)
    ⟨fun _ hq => absurd hq List.not_mem_nil, .start⟩ h
  obtain ⟨id, p', net', rfl, hp⟩ := step_cases hs
  exact ⟨hp.noInstall hi.1, hi.2.step hi.1 hp⟩

end MiniStorage.Raft
