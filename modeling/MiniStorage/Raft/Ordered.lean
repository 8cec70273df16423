import MiniStorage.Raft.Counters

namespace MiniStorage.Raft

open RaftNode

variable {peers : List Bytes} {c : Cluster} {id : Bytes} {p p' : Process} {net net' : List Packet} {act : Action}
  {acts : List Action} {n : RaftNode} {log rest : List LogEntry} {e : LogEntry} {i : Nat}

/-- Indices only grow along a log. -/
def Sorted (log : List LogEntry) : Prop := log.Pairwise (·.index < ·.index)

instance (log : List LogEntry) : Decidable (Sorted log) :=
  inferInstanceAs (Decidable (log.Pairwise (·.index < ·.index)))

theorem Sorted.le_back (h : Sorted log) (he : e ∈ log) : e.index ≤ (back log).index := by
  induction log using List.reverseRecOn with
  | nil => cases he
  | append_singleton log x =>
      have hback : back (log ++ [x]) = x := by simp [back]
      rw [hback]
      rcases List.mem_append.mp he with he | he
      · exact ((List.pairwise_append.mp h).2.2 e he x (List.mem_singleton_self x)).le
      · rw [List.mem_singleton.mp he]

theorem back_mem (hne : log ≠ []) : back log ∈ log := by
  rw [back, List.getLastD_eq_getLast?, List.getLast?_eq_some_getLast hne]
  exact List.getLast_mem hne

theorem Sorted.back_le (h : Sorted log) (hp : rest <+: log) (hne : rest ≠ []) :
    (back rest).index ≤ (back log).index := h.le_back (hp.subset (back_mem hne))

theorem Sorted.append_one (h : Sorted log) (he : (back log).index < e.index) : Sorted (log ++ [e]) :=
  List.pairwise_append.mpr ⟨h, List.pairwise_singleton _ _, fun x hx y hy => by
    rw [List.mem_singleton.mp hy]; exact (h.le_back hx).trans_lt he⟩

theorem Sorted.appendNew (h : Sorted log) (entries : List LogEntry) : Sorted (appendNew log entries) := by
  rw [RaftNode.appendNew]
  induction entries generalizing log with
  | nil => exact h
  | cons e es ih =>
      rw [List.foldl_cons]
      apply ih
      split
      · next hlt => exact h.append_one hlt
      · exact h

theorem trimLog_sublist (hs : log = {} :: log.tail) (t : Nat) : (trimLog log t).Sublist log := by
  rw [RaftNode.trimLog, hs]
  exact (List.filter_sublist).cons_cons _

theorem Sorted.trimLog (h : Sorted log) (hs : log = {} :: log.tail) (t : Nat) : Sorted (trimLog log t) :=
  h.sublist (trimLog_sublist hs t)

theorem Sorted.find_eq (h : Sorted log) {e : LogEntry} (he : e ∈ log) : log.find? (·.index = e.index) = some e := by
  induction log with
  | nil => cases he
  | cons x log ih =>
      obtain ⟨hx, htail⟩ := List.pairwise_cons.mp h
      rcases List.mem_cons.mp he with rfl | hmem
      · exact List.find?_cons_of_pos (decide_eq_true rfl)
      · rw [List.find?_cons_of_neg (by simpa using (hx e hmem).ne)]
        exact ih htail hmem

theorem getLogEntry_index {i : Nat} {e : LogEntry} (h : n.getLogEntry i = some e) : e ∈ n.log ∧ e.index = i :=
  ⟨List.mem_of_find?_eq_some h, by simpa using List.find?_some h⟩

theorem popFrom_split (h : popFrom log i = some rest) : ∃ X, log = rest ++ X ∧ ∀ e ∈ X, i ≤ e.index := by
  rw [popFrom] at h
  split at h
  · cases h
  · cases h
    refine ⟨log.rtakeWhile (i ≤ ·.index), List.rdropWhile_append_rtakeWhile.symm, fun e he => ?_⟩
    simpa using List.mem_rtakeWhile_imp he

theorem restart_upper (n : RaftNode) (j : Nat) (x : Option LogEntry) :
    .applied j x ∉ (Process.restart n).node.upper := by
  have hstate (m : RaftNode) : m.restoreState.upper = m.upper := by rw [restoreState]; split <;> rfl
  have hsnap (m : RaftNode) (hm : m.upper = []) : .applied j x ∉ m.restoreFromSnapshot.upper := by
    rw [restoreFromSnapshot]
    split
    · rw [hm]; exact List.not_mem_nil
    · dsimp only
      rw [hm]
      split <;> split <;> simp
  rw [Process.restart, RaftNode.start, becomeFollower_self]
  exact hsnap _ (by rw [hstate])

theorem ProcStep.sorted (hp : ProcStep peers id p net act p' net') (hi : p.node.Intact) (hs : Sorted p.node.log)
    (hcrash : noCrash act = true) : Sorted p'.node.log := by
  cases hp.logChange with
  | same hlog => rw [hlog]; exact hs
  | propose command hstate hn => rw [hn]; exact hs.append_one (Nat.lt_succ_self _)
  | trim data snap hsnap hn hnone => rw [hn]; exact hs.trimLog hi.sentinel _
  | truncate src req hmem hterm hsnap hback e he hne log hlog hn =>
      rw [hn]
      exact hs.sublist (popFrom_isPrefix hlog).1.sublist
  | accept src req hmem hterm hsnap hback hprev hn =>
      rw [hn, acceptEntries_log, follow_log]
      exact hs.appendNew _
  | install src req hmem =>
      rw [hp.of_install]
      have ho := handleInstallSnapshot_cases p.node req.leaderId req
      generalize p.node.handleInstallSnapshot req.leaderId req = r at ho ⊢
      cases ho with
      | stale => exact hs
      | skip => exact (follow_log req.leaderId req.term).symm ▸ hs
      | install => exact hs.trimLog hi.sentinel _
  | restart | crashHandling => cases hcrash

/-- What holds of a process in every run. -/
structure Ordered (p : Process) : Prop where
  intact : p.node.Intact
  sorted : Sorted p.node.log
  counters : Counters p
  below : ∀ j x, .applied j x ∈ p.node.upper → j ≤ p.node.lastApplied

theorem Ordered.start : Ordered { node := RaftNode.start none none } where
  intact := .start
  sorted := List.pairwise_singleton _ _
  counters := ⟨rfl, le_rfl, nofun⟩
  below _ _ h := by cases h

theorem Ordered.restart (hi : n.Intact) (hs : Sorted n.log) : Ordered (Process.restart n) where
  intact := hi.restarted
  sorted := by rw [hi.restart.2.2.1]; exact hs
  counters := .restart n
  below j x h := absurd h (restart_upper n j x)

theorem Ordered.step_below (h : Ordered p) (hp : ProcStep peers id p net act p' net') (hcrash : noCrash act = true)
    (hn : NoInstall net) (j : Nat) (x : Option LogEntry) (hx : .applied j x ∈ p'.node.upper) :
    j ≤ p'.node.lastApplied := by
  cases hp.commitChange with
  | same hcommit happlied hupper =>
      rw [hupper] at hx
      exact (h.below j x hx).trans happlied.ge
  | commit k hk =>
      rw [hk.lastApplied]
      rw [hk.upper, List.mem_append] at hx
      rcases hx with hx | hx
      · exact (h.below j x hx).trans (le_max_left _ _)
      · obtain ⟨i, hi, he⟩ := List.mem_map.mp hx
        obtain ⟨-, hlt⟩ := List.mem_range'_1.mp hi
        cases he
        omega
  | install src req hmem => exact absurd rfl (hn _ hmem req)
  | restart | crashHandling => cases hcrash

theorem Ordered.step (h : Ordered p) (hp : ProcStep peers id p net act p' net') (hn : NoInstall net) : Ordered p' := by
  cases hcrash : noCrash act with
  | false =>
      cases hp with
      | restart => exact .restart h.intact h.sorted
      | crashHandling => exact .restart (.persistState h.intact.sentinel) h.sorted
      | _ => cases hcrash
  | true =>
      exact ⟨hp.intact h.intact, hp.sorted h.intact h.sorted hcrash, h.counters.step hp hn, h.step_below hp hcrash hn⟩

theorem run_ordered {guard : Cluster → Action → Prop} (h : Runs.Run (step peers) guard start acts c) :
    NoInstall c.net ∧ ∀ id, Ordered (c.procs id) := by
  apply run_forall (I := fun _ p => Ordered p) _ (fun _ hq => absurd hq List.not_mem_nil) (fun _ => .start) h
  intro c id act p' net' hi hn _ hp
  exact hi.step hp hn

end MiniStorage.Raft
