import MiniStorage.Raft.Intact
import MiniStorage.Raft.Guards

namespace MiniStorage.Raft

open RaftNode

variable {peers : List Bytes} {c c' : Cluster} {id : Bytes} {p p' : Process} {net net' : List Packet} {act : Action}
  {acts : List Action}

/-- Nobody is asked to install a snapshot. -/
def NoInstall (net : List Packet) : Prop := ∀ q ∈ net, ∀ req, q.msg ≠ .installSnapshot req

theorem ProcStep.noInstall (hp : ProcStep peers id p net act p' net') (h : NoInstall net) : NoInstall net' := by
  intro q hq
  rcases hp.sends hq with hq | ⟨peer, rest, -, -, rfl⟩ | ⟨r, hr⟩ | ⟨r, hr⟩ | ⟨r, hr⟩ | ⟨src, req, hmem⟩
  · exact h q hq
  · exact nofun
  · rw [hr]; exact nofun
  · rw [hr]; exact nofun
  · rw [hr]; exact nofun
  · exact absurd rfl (h _ hmem req)

theorem ProcStep.not_install (hp : ProcStep peers id p net act p' net') (h : NoInstall net) (src : Bytes)
    (req : InstallSnapshotRequest) : act ≠ .deliver ⟨src, id, .installSnapshot req⟩ := by
  rintro rfl
  cases hp with
  | installSnapshot _ _ hmem => exact h _ hmem req rfl

/-- What every node keeps in its own steps holds of all of them in every run. -/
theorem run_forall {I : Bytes → Process → Prop} {guard : Cluster → Action → Prop}
    (hI : ∀ {c id act p' net'}, I id (c.procs id) → NoInstall c.net → guard c act →
      ProcStep peers id (c.procs id) c.net act p' net' → I id p')
    (hn : NoInstall c.net) (hs : ∀ w, I w (c.procs w)) (h : Runs.Run (step peers) guard c acts c') :
    NoInstall c'.net ∧ ∀ w, I w (c'.procs w) := by
  refine Runs.Run.invariant (I := fun c => NoInstall c.net ∧ ∀ w, I w (c.procs w)) (fun c act c' hi hg hst => ?_)
    ⟨hn, hs⟩ h
  obtain ⟨hn, hi⟩ := hi
  obtain ⟨id, p', net', rfl, hp⟩ := step_cases hst
  exact ⟨hp.noInstall hn, put_cases c net' (hI (hi id) hn hg hp) fun w _ => hi w⟩

theorem ProcStep.snapshot_index (hp : ProcStep peers id p net act p' net') (hcrash : noCrash act = true)
    (hn : ∀ src req, act ≠ .deliver ⟨src, id, .installSnapshot req⟩) :
    p'.node.snapshotLastIndex = p.node.snapshotLastIndex ∨
      ∃ snap, p.snapshot = some ⟨snap, true⟩ ∧ p'.snapshot = none ∧
        p'.node.snapshotLastIndex = snap.lastIncludedIndex := by
  cases hp.logChange with
  | same hlog hsnap => exact .inl hsnap
  | propose command hstate hn => exact .inl (by rw [hn]; rfl)
  | trim data snap hsnap hn hnone => exact .inr ⟨snap, hsnap, hnone, by rw [hn]; rfl⟩
  | truncate src req hmem hterm hsnap hback e he hne log hlog hn =>
      exact .inl (by rw [hn]; exact catchUp_snapshotLastIndex _)
  | accept src req hmem hterm hsnap hback hprev hn =>
      exact .inl (by rw [hn, acceptEntries_snapshotLastIndex, follow_snapshotLastIndex])
  | install src req => exact absurd rfl (hn src req)
  | restart | crashHandling => cases hcrash

theorem ProcStep.snapshot_cases (hp : ProcStep peers id p net act p' net') : p'.snapshot = p.snapshot ∨
    (∃ data snap, p.node.captureSnapshot data = some snap ∧ p'.snapshot = some ⟨snap, false⟩) ∨
    (∃ snap, p.snapshot = some ⟨snap, false⟩ ∧ p'.snapshot = some ⟨snap, true⟩) ∨ p'.snapshot = none := by
  cases hp with
  | timer => rw [Process.timerStep]; split <;> exact .inl rfl
  | capture data hid snap hnone hsnap => exact .inr (.inl ⟨data, snap, hsnap, rfl⟩)
  | write data snap hsnap => exact .inr (.inr (.inl ⟨snap, hsnap, rfl⟩))
  | trim | restart | crashHandling => exact .inr (.inr (.inr rfl))
  | _ => exact .inl rfl

theorem ProcStep.snapshot_written (hp : ProcStep peers id p net act p' net') (hcrash : noCrash act = true)
    {snap : SnapshotMetadata} (hsnap : p.snapshot = some ⟨snap, true⟩) :
    p'.snapshot = some ⟨snap, true⟩ ∨ p'.snapshot = none ∧ p'.node = p.node.trimSnapshot snap := by
  cases hp with
  | timer => rw [Process.timerStep]; split <;> exact .inl hsnap
  | capture data hid s hnone => rw [hnone] at hsnap; cases hsnap
  | write data s hs => rw [hs] at hsnap; cases hsnap
  | trim data hfree s hs =>
      rw [hs] at hsnap
      cases hsnap
      exact .inr ⟨rfl, rfl⟩
  | restart | crashHandling => cases hcrash
  | _ => exact .inl hsnap

theorem ProcStep.snapshot_call (hp : ProcStep peers id p net act p' net') (hcrash : noCrash act = true)
    (hsnap : noSnapshot act = true) : p'.snapshot = p.snapshot := by
  cases hp with
  | timer => rw [Process.timerStep]; split <;> rfl
  | capture | write | trim => cases hsnap
  | restart | crashHandling => cases hcrash
  | _ => rfl

theorem ProcStep.restarts (hp : ProcStep peers id p net act p' net') (hcrash : noCrash act = false) :
    ∃ n, p' = Process.restart n := by
  cases hp with
  | restart => exact ⟨_, rfl⟩
  | crashHandling => exact ⟨_, rfl⟩
  | _ => cases hcrash

theorem ProcStep.of_install {src : Bytes} {req : InstallSnapshotRequest}
    (hp : ProcStep peers id p net (.deliver ⟨src, id, .installSnapshot req⟩) p' net') :
    p' = { p with node := (p.node.handleInstallSnapshot req.leaderId req).1 } := by
  cases hp
  rfl

/-- Everything committed is applied, and snapshots are taken of what is applied. -/
structure Counters (p : Process) : Prop where
  applied : p.node.lastApplied = p.node.commitIndex
  snap : p.node.snapshotLastIndex ≤ p.node.lastApplied
  pending : ∀ s, p.snapshot = some s → p.node.snapshotLastIndex < s.snap.lastIncludedIndex ∧
    s.snap.lastIncludedIndex ≤ p.node.lastApplied

theorem restoreState_counters (n : RaftNode) (h : n.lastApplied = n.commitIndex) :
    n.restoreState.lastApplied = n.restoreState.commitIndex ∧
      n.restoreState.snapshotLastIndex = n.snapshotLastIndex := by
  rw [restoreState]
  split
  · exact ⟨h, rfl⟩
  · exact ⟨rfl, rfl⟩

theorem restoreFromSnapshot_counters (n : RaftNode) (h : n.lastApplied = n.commitIndex)
    (hs : n.snapshotLastIndex ≤ n.lastApplied) :
    n.restoreFromSnapshot.lastApplied = n.restoreFromSnapshot.commitIndex ∧
      n.restoreFromSnapshot.snapshotLastIndex ≤ n.restoreFromSnapshot.lastApplied := by
  rw [restoreFromSnapshot]
  split
  · exact ⟨h, hs⟩
  · next snap hfile =>
    dsimp only
    split
    · exact ⟨rfl, le_rfl⟩
    · next hle => exact ⟨h, by show snap.lastIncludedIndex ≤ n.lastApplied; omega⟩

theorem Counters.restart (n : RaftNode) : Counters (Process.restart n) := by
  obtain ⟨h, hs⟩ := restoreState_counters { stateFile := n.stateFile, snapshotFile := n.snapshotFile : RaftNode } rfl
  obtain ⟨h', hs'⟩ := restoreFromSnapshot_counters _ h (by rw [hs]; exact Nat.zero_le _)
  refine ⟨?_, ?_, nofun⟩
  · rw [Process.restart, RaftNode.start, becomeFollower_self]; exact h'
  · rw [Process.restart, RaftNode.start, becomeFollower_self]; exact hs'

/-- How the counters stand to each other, whatever the peers send. A snapshot may be installed while another one is
being taken, so what TakeSnapshot has captured is bounded by what is applied only. -/
structure Counted (p : Process) : Prop where
  applied : p.node.lastApplied = p.node.commitIndex
  snap : p.node.snapshotLastIndex ≤ p.node.lastApplied
  captured : ∀ s, p.snapshot = some s → s.snap.lastIncludedIndex ≤ p.node.lastApplied

theorem Counted.restart (n : RaftNode) : Counted (Process.restart n) where
  applied := (Counters.restart n).applied
  snap := (Counters.restart n).snap
  captured _ h := by cases h

theorem Counted.step_mono (h : Counted p) (hp : ProcStep peers id p net act p' net')
    (hcrash : noCrash act = true) : p'.node.lastApplied = p'.node.commitIndex ∧
      p.node.commitIndex ≤ p'.node.commitIndex := by
  have happlied := h.applied
  cases hp.commitChange with
  | same hcommit hsame => exact ⟨by rw [hsame, hcommit, happlied], hcommit.ge⟩
  | commit k hk =>
      have hnew := hk.new
      rw [hk.lastApplied, hk.commitIndex]
      omega
  | install src req hmem =>
      rw [hp.of_install]
      have ho := handleInstallSnapshot_cases p.node req.leaderId req
      generalize p.node.handleInstallSnapshot req.leaderId req = r at ho ⊢
      cases ho with
      | stale => exact ⟨happlied, le_rfl⟩
      | skip =>
          have hcommit : (p.node.follow req.leaderId req.term).commitIndex = p.node.commitIndex := catchUp_commitIndex _
          have hsame : (p.node.follow req.leaderId req.term).lastApplied = p.node.lastApplied := catchUp_lastApplied _
          exact ⟨hsame.trans (happlied.trans hcommit.symm), hcommit.ge⟩
      | install hterm hsnap hcommit => exact ⟨rfl, hcommit.le⟩
  | restart | crashHandling => cases hcrash

theorem Counted.step_snap (h : Counted p) (hp : ProcStep peers id p net act p' net')
    (hcrash : noCrash act = true) : p'.node.snapshotLastIndex ≤ p'.node.lastApplied := by
  obtain ⟨happlied, hmono⟩ := h.step_mono hp hcrash
  rw [← h.applied, ← happlied] at hmono
  by_cases hinst : ∃ src req, act = .deliver ⟨src, id, .installSnapshot req⟩
  · obtain ⟨src, req, rfl⟩ := hinst
    rw [hp.of_install] at hmono ⊢
    have ho := handleInstallSnapshot_cases p.node req.leaderId req
    generalize p.node.handleInstallSnapshot req.leaderId req = r at ho hmono ⊢
    cases ho with
    | stale => exact h.snap
    | skip => exact (catchUp_snapshotLastIndex req.term).trans_le (h.snap.trans hmono)
    | install => exact le_rfl
  · rcases hp.snapshot_index hcrash fun src req he => hinst ⟨src, req, he⟩ with hi | ⟨snap, hsnap, -, hi⟩
    · exact hi.trans_le (h.snap.trans hmono)
    · exact hi.trans_le ((h.captured _ hsnap).trans hmono)

theorem Counted.step_captured (h : Counted p) (hp : ProcStep peers id p net act p' net')
    (hcrash : noCrash act = true) (s : SnapshotCall) (hs : p'.snapshot = some s) :
    s.snap.lastIncludedIndex ≤ p'.node.lastApplied := by
  obtain ⟨happlied, hmono⟩ := h.step_mono hp hcrash
  rw [← h.applied, ← happlied] at hmono
  rcases hp.snapshot_cases with hsame | ⟨data, snap, hcap, hsnap⟩ | ⟨snap, hold, hsnap⟩ | hnone
  · exact (h.captured s (hsame ▸ hs)).trans hmono
  · obtain rfl := Option.some.inj (hsnap.symm.trans hs)
    rw [captureSnapshot, Option.ite_none_left_eq_some] at hcap
    obtain ⟨-, hcap⟩ := hcap
    cases hcap
    exact hmono
  · obtain rfl := Option.some.inj (hsnap.symm.trans hs)
    exact (h.captured _ hold).trans hmono
  · rw [hnone] at hs
    cases hs

theorem Counted.step (h : Counted p) (hp : ProcStep peers id p net act p' net') : Counted p' := by
  cases hcrash : noCrash act with
  | false =>
      obtain ⟨n, rfl⟩ := hp.restarts hcrash
      exact .restart n
  | true => exact ⟨(h.step_mono hp hcrash).1, h.step_snap hp hcrash, h.step_captured hp hcrash⟩

theorem Counters.step (h : Counters p) (hp : ProcStep peers id p net act p' net') (hn : NoInstall net) :
    Counters p' := by
  have hc : Counted p' := Counted.step ⟨h.applied, h.snap, fun s hs => (h.pending s hs).2⟩ hp
  refine ⟨hc.applied, hc.snap, fun s hs => ⟨?_, hc.captured s hs⟩⟩
  cases hcrash : noCrash act with
  | false =>
      obtain ⟨n, rfl⟩ := hp.restarts hcrash
      cases hs
  | true =>
      have hi : p'.node.snapshotLastIndex = p.node.snapshotLastIndex := by
        rcases hp.snapshot_index hcrash (hp.not_install hn) with hi | ⟨snap, -, hnone, -⟩
        · exact hi
        · rw [hnone] at hs; cases hs
      rw [hi]
      rcases hp.snapshot_cases with hsame | ⟨data, snap, hcap, hsnap⟩ | ⟨snap, hold, hsnap⟩ | hnone
      · exact (h.pending s (hsame ▸ hs)).1
      · obtain rfl := Option.some.inj (hsnap.symm.trans hs)
        rw [captureSnapshot, Option.ite_none_left_eq_some] at hcap
        obtain ⟨hlt, hcap⟩ := hcap
        cases hcap
        exact Nat.lt_of_not_le hlt
      · obtain rfl := Option.some.inj (hsnap.symm.trans hs)
        exact (h.pending _ hold).1
      · rw [hnone] at hs; cases hs

end MiniStorage.Raft
