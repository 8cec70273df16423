import MiniStorage.Raft.Restart

namespace MiniStorage.Raft

open RaftNode

variable {peers : List Bytes} {c c' : Cluster} {id : Bytes} {p p' : Process} {net net' : List Packet} {act : Action}
  {acts : List Action} {n : RaftNode} {log M : List LogEntry} {e : LogEntry} {i k l m s : Nat}
  {R : List UpperEvent}

/-- The events that invoke restore_cb_ or apply_cb_. -/
def callbacks (events : List UpperEvent) : List UpperEvent :=
  events.filter fun
    | .applied _ (some e) => e.command ≠ []
    | .applied _ none => false
    | .restored _ => true

/-- The call of restore_cb_ for a snapshot file. -/
def restoreCalls (file : Option SnapshotMetadata) : List UpperEvent :=
  match file with
  | none => []
  | some snap => if snap.metadataStoreData = [] then [] else [.restored snap.metadataStoreData]

/-- The entries of a log behind one position, up to another. -/
def between (log : List LogEntry) (s k : Nat) : List LogEntry := log.filter fun e => s < e.index && e.index ≤ k

/-- The calls of apply_cb_ for entries. -/
def applies (entries : List LogEntry) : List UpperEvent :=
  (entries.filter (·.command ≠ [])).map fun e => .applied e.index (some e)

theorem applies_append (L M : List LogEntry) : applies (L ++ M) = applies L ++ applies M := by
  simp [applies]

theorem between_of_le (h : k ≤ s) : between log s k = [] :=
  List.filter_eq_nil_iff.mpr fun e _ => by simp; omega

theorem between_of_lt (h : ∀ e ∈ log, k < e.index) : between log s k = [] :=
  List.filter_eq_nil_iff.mpr fun e he => by have := h e he; simp; omega

theorem Sorted.between_split (h : Sorted log) (hs : s ≤ l) (hk : l ≤ k) :
    between log s k = between log s l ++ between log l k := by
  induction log with
  | nil => rfl
  | cons e M ih =>
      obtain ⟨he, hM⟩ := List.pairwise_cons.mp h
      have hih := ih hM
      simp only [between, List.filter_cons] at hih ⊢
      rcases Nat.lt_or_ge l e.index with hlt | hge
      · have hnil : M.filter (fun e => s < e.index && e.index ≤ l) = [] := between_of_lt fun x hx => hlt.trans (he x hx)
        rw [hnil, List.nil_append] at hih
        simp [hnil, hih, show ¬ e.index ≤ l by omega, hlt, show s < e.index by omega]
      · rcases Nat.lt_or_ge s e.index with hlt | hge'
        · simp [hih, hlt, hge, show ¬ l < e.index by omega, show e.index ≤ k by omega]
        · simp [hih, show ¬ s < e.index by omega, show ¬ l < e.index by omega]

theorem Sorted.find_toList (h : Sorted log) (i : Nat) :
    (log.find? (·.index = i)).toList = log.filter (·.index = i) := by
  induction log with
  | nil => rfl
  | cons e M ih =>
      obtain ⟨he, hM⟩ := List.pairwise_cons.mp h
      by_cases hi : e.index = i
      · have hnil : M.filter (·.index = i) = [] := List.filter_eq_nil_iff.mpr fun x hx => by
          have := he x hx
          simp
          omega
        rw [List.find?_cons_of_pos (by simpa using hi), List.filter_cons_of_pos (by simpa using hi), hnil]
        rfl
      · rw [List.find?_cons_of_neg (by simpa using hi), List.filter_cons_of_neg (by simpa using hi)]
        exact ih hM

theorem Sorted.lookup (h : Sorted log) (l m : Nat) :
    (List.range' (l + 1) m).filterMap (fun i => log.find? (·.index = i)) = between log l (l + m) := by
  induction m with
  | zero => exact (between_of_le le_rfl).symm
  | succ m ih =>
      have hlast : between log (l + m) (l + (m + 1)) = log.filter (·.index = l + 1 + m) := by
        refine List.filter_congr fun e _ => ?_
        rw [Bool.eq_iff_iff]
        simp
        omega
      rw [List.range'_concat, List.filterMap_append, ih,
        h.between_split (k := l + (m + 1)) (Nat.le_add_right l m) (by omega), hlast, Nat.one_mul, ← h.find_toList]
      congr 1

theorem callbacks_append (L M : List UpperEvent) : callbacks (L ++ M) = callbacks L ++ callbacks M :=
  List.filter_append _ _

theorem callbacks_applied (e : LogEntry) : callbacks [.applied e.index (some e)] = applies [e] := by
  by_cases hc : e.command = [] <;> simp [callbacks, applies, hc]

theorem callbacks_lookup (log : List LogEntry) (is : List Nat) :
    callbacks (is.map fun i => .applied i (log.find? (·.index = i))) =
      applies (is.filterMap fun i => log.find? (·.index = i)) := by
  induction is with
  | nil => rfl
  | cons i is ih =>
      rw [List.map_cons, ← List.singleton_append, callbacks_append, ih, List.filterMap_cons]
      cases hf : log.find? (·.index = i) with
      | none => rfl
      | some e =>
          have hi : e.index = i := by simpa using List.find?_some hf
          subst hi
          rw [callbacks_applied, ← applies_append]
          rfl

theorem Sorted.between_append (h : Sorted (log ++ M)) (hne : log ≠ []) (hl : l ≤ s ∨ l ≤ (back log).index) :
    between (log ++ M) s l = between log s l := by
  rcases hl with hl | hl
  · rw [between_of_le hl, between_of_le hl]
  · have hM : between M s l = [] := between_of_lt fun x hx =>
      hl.trans_lt ((List.pairwise_append.mp h).2.2 _ (back_mem hne) x hx)
    rw [between] at hM
    rw [between, List.filter_append, hM, List.append_nil]
    rfl

/-- What the state machine has been told is the snapshot and the entries applied since. -/
def Rebuilt (file : Option SnapshotMetadata) (s : Nat) (n : RaftNode) : Prop :=
  callbacks n.upper = restoreCalls file ++ applies (between n.log s n.lastApplied)

/-- A node on its way after a restart. -/
structure Rebuilding (file : Option SnapshotMetadata) (s : Nat) (p : Process) : Prop extends Ordered p where
  idle : p.snapshot = none
  index : p.node.snapshotLastIndex = s
  ends : p.node.lastApplied ≤ s ∨ p.node.lastApplied ≤ (back p.node.log).index
  rebuilt : Rebuilt file s p.node

/-- A step that keeps what is applied keeps the entries up to there. -/
theorem Ordered.step_between (h : Ordered p) (hp : ProcStep peers id p net act p' net') (hcrash : noCrash act = true)
    (hsnap : p.snapshot = none) (hn : NoInstall net)
    (hends : p.node.lastApplied ≤ p.node.snapshotLastIndex ∨ p.node.lastApplied ≤ (back p.node.log).index)
    (hkeep : ∀ src req, act = .deliver ⟨src, id, .appendEntries req⟩ → keepsApplied p.node req = true) :
    between p'.node.log p.node.snapshotLastIndex p.node.lastApplied =
      between p.node.log p.node.snapshotLastIndex p.node.lastApplied ∧
    (p.node.lastApplied ≤ p.node.snapshotLastIndex ∨ p.node.lastApplied ≤ (back p'.node.log).index) := by
  have hne : p.node.log ≠ [] := by rw [h.intact.sentinel]; exact List.cons_ne_nil _ _
  have hsorted := hp.sorted h.intact h.sorted hcrash
  have hgrow (hg : p.node.log <+: p'.node.log) :
      between p'.node.log p.node.snapshotLastIndex p.node.lastApplied =
        between p.node.log p.node.snapshotLastIndex p.node.lastApplied ∧
      (p.node.lastApplied ≤ p.node.snapshotLastIndex ∨ p.node.lastApplied ≤ (back p'.node.log).index) := by
    refine ⟨?_, hends.imp_right fun hle => hle.trans (hsorted.back_le hg hne)⟩
    obtain ⟨M, hM⟩ := hg
    rw [← hM] at hsorted ⊢
    exact hsorted.between_append hne hends
  cases hp.logChange with
  | same hlog => exact hgrow (hlog ▸ List.prefix_refl _)
  | propose command hstate hn => exact hgrow (hn ▸ List.prefix_append _ _)
  | trim data snap hpending => rw [hsnap] at hpending; cases hpending
  | truncate src req hmem hterm hs hback f hf hne' log hlog hn =>
      have hk := hkeep src req rfl
      have hall := of_decide_eq_true hk (truncates_of hterm hs hback hf hne')
      rw [hlog, Option.all_some, Bool.or_eq_true, decide_eq_true_eq, decide_eq_true_eq] at hall
      obtain ⟨X, hX, -⟩ := popFrom_split hlog
      have hold := h.sorted
      rw [hX] at hold
      rw [hn]
      refine ⟨?_, hall⟩
      rw [hX]
      exact (hold.between_append (popFrom_isPrefix hlog).2 hall).symm
  | accept src req hmem hterm hs hback hprev hn =>
      refine hgrow ?_
      rw [hn, acceptEntries_log, follow, catchUp_log]
      exact appendNew_grows _ _
  | install src req hmem => exact absurd rfl (hn _ hmem req)
  | restart | crashHandling => cases hcrash

theorem Rebuilding.step {file : Option SnapshotMetadata} (h : Rebuilding file s p)
    (hp : ProcStep peers id p net act p' net') (hcrash : noCrash act = true) (hsnap : p'.snapshot = p.snapshot)
    (hn : NoInstall net)
    (hkeep : ∀ src req, act = .deliver ⟨src, id, .appendEntries req⟩ → keepsApplied p.node req = true) :
    Rebuilding file s p' := by
  have hindex : p'.node.snapshotLastIndex = s := by
    rcases hp.snapshot_index hcrash (hp.not_install hn) with hi | ⟨snap, hpending, -⟩
    · exact hi.trans h.index
    · rw [h.idle] at hpending; cases hpending
  obtain ⟨hbetween, hends⟩ := h.toOrdered.step_between hp hcrash h.idle hn (h.index.symm ▸ h.ends) hkeep
  rw [h.index] at hbetween hends
  have hs : s ≤ p.node.lastApplied := h.index.symm.trans_le h.counters.snap
  have hre := h.rebuilt
  rw [Rebuilt, ← hbetween] at hre
  refine ⟨h.toOrdered.step hp hn, hsnap.trans h.idle, hindex, ?_, ?_⟩
  · cases hp.commitChange with
    | same hcommit happlied => rw [happlied]; exact hends
    | commit k hk =>
        have happ := h.counters.applied
        have hnew := hk.new
        have hback := hk.back
        rw [hk.lastApplied]
        exact .inr (by omega)
    | install src req hmem => exact absurd rfl (hn _ hmem req)
    | restart | crashHandling => cases hcrash
  · rw [Rebuilt]
    cases hp.commitChange with
    | same hcommit happlied hupper => rw [happlied, hupper]; exact hre
    | commit k hk =>
        have happ := h.counters.applied
        have hnew := hk.new
        have hsorted := hp.sorted h.intact h.sorted hcrash
        have hl : p.node.lastApplied ≤ k := by omega
        rw [hk.lastApplied, hk.upper, callbacks_append, hre, max_eq_right hl, hsorted.between_split hs hl,
          applies_append, List.append_assoc]
        refine congrArg (_ ++ ·) (congrArg (_ ++ ·) ?_)
        have hlookup := hsorted.lookup p.node.lastApplied (k - p.node.lastApplied)
        rw [Nat.add_sub_cancel' hl] at hlookup
        rw [← hlookup]
        exact callbacks_lookup _ _
    | install src req hmem => exact absurd rfl (hn _ hmem req)
    | restart | crashHandling => cases hcrash

theorem ProcStep.goesOn (hp : ProcStep peers id p net act p' net') (hg : goesOn id c act = true) :
    noCrash act = true ∧ noSnapshot act = true := by
  cases hp with
  | restart | capture | write | trim => exact absurd rfl (of_decide_eq_true hg)
  | crashHandling packet hmem hdst => exact absurd hdst (of_decide_eq_true hg)
  | _ => exact ⟨rfl, rfl⟩

theorem Rebuilding.run {file : Option SnapshotMetadata} (hn : NoInstall c.net) (h : Rebuilding file s (c.procs id))
    (hr : Runs.Run (Raft.step peers) (fun c act => goesOn id c act = true) c acts c') :
    Rebuilding file s (c'.procs id) := by
  refine (run_forall (I := fun w p => w = id → Rebuilding file s p) ?_ hn (fun w hw => hw ▸ h) hr).2 id rfl
  intro c w act p' net' hi hn hg hp hw
  subst w
  obtain ⟨hcrash, hsnap⟩ := hp.goesOn hg
  refine (hi rfl).step hp hcrash (hp.snapshot_call hcrash hsnap) hn fun src req hact => ?_
  subst hact
  exact of_decide_eq_true hg rfl

theorem restart_upper_eq (n : RaftNode) : (Process.restart n).node.upper = restoreCalls n.snapshotFile := by
  obtain ⟨m, hm⟩ : ∃ m, m = { stateFile := n.stateFile, snapshotFile := n.snapshotFile : RaftNode }.restoreState :=
    ⟨_, rfl⟩
  have hstate : m.upper = [] ∧ m.snapshotFile = n.snapshotFile := by
    rw [hm, restoreState]
    cases n.stateFile <;> exact ⟨rfl, rfl⟩
  obtain ⟨hu, hf⟩ := hstate
  rw [Process.restart, RaftNode.start, ← hm, becomeFollower_self, restoreFromSnapshot, hf, hu]
  cases n.snapshotFile with
  | none => exact hu
  | some snap =>
      dsimp only
      split <;> rfl

theorem callbacks_restoreCalls (file : Option SnapshotMetadata) :
    callbacks (restoreCalls file) = restoreCalls file := by
  cases file with
  | none => rfl
  | some snap =>
      rw [restoreCalls]
      split <;> rfl

theorem applies_eq_nil {L : List LogEntry} : applies L = [] ↔ ∀ e ∈ L, e.command = [] := by
  simp [applies]

theorem restart_rebuilt (hi : n.Intact) (hs : Sorted n.log) :
    Rebuilt n.snapshotFile n.snapshotEnd (Process.restart n).node ↔
      ∀ file, n.stateFile = some file → ∀ e ∈ file.entries, n.snapshotEnd < e.index → e.command = [] := by
  have hlast : (Process.restart n).node.lastApplied = max (back n.log).index n.snapshotEnd := by
    rw [(Counters.restart n).applied, (restart_commitIndex n).1, Intact.fileEnd hi]
  rw [Rebuilt, restart_upper_eq, callbacks_restoreCalls, hi.restart.2.2.1, hlast, List.self_eq_append_right,
    applies_eq_nil]
  refine ⟨fun h file hfile e he hlt => ?_, fun h e he => ?_⟩
  · have hmem : e ∈ n.log := by
      rcases hi.file with hf | ⟨hf, -⟩
      · obtain rfl := Option.some.inj (hf.symm.trans hfile)
        exact List.mem_of_mem_tail he
      · rw [hf] at hfile; cases hfile
    have hle := hs.le_back hmem
    refine h e (List.mem_filter.mpr ⟨hmem, ?_⟩)
    simp
    omega
  · obtain ⟨hmem, hlt⟩ := List.mem_filter.mp he
    have hlt : n.snapshotEnd < e.index := by simp at hlt; exact hlt.1
    rw [hi.sentinel, List.mem_cons] at hmem
    rcases hmem with rfl | hmem
    · exact absurd hlt (Nat.not_lt_zero _)
    · rcases hi.file with hf | ⟨-, -, -, hl⟩
      · exact h _ hf e hmem hlt
      · rw [hl] at hmem; cases hmem

/-- A restarted node's state machine is rebuilt, then and later, exactly when its
state file holds no command behind its snapshot. -/
theorem restart_rebuilds (h : Runs.Run (step peers) (fun _ _ => True) start acts c)
    (hs : step peers c (.restart id) = some c') :
    (∀ acts' c'', Runs.Run (step peers) (fun c act => goesOn id c act = true) c' acts' c'' →
      Rebuilt (c.node id).snapshotFile (c.node id).snapshotEnd (c''.node id)) ↔
      ∀ file, (c.node id).stateFile = some file → ∀ e ∈ file.entries, (c.node id).snapshotEnd < e.index →
        e.command = [] := by
  obtain ⟨hn, ho⟩ := run_ordered h
  have hord := ho id
  simp only [step, Option.ite_none_right_eq_some, Option.some.injEq] at hs
  obtain ⟨-, rfl⟩ := hs
  have hiff := restart_rebuilt hord.intact hord.sorted
  refine ⟨fun hall => hiff.mp ?_, fun hcond acts' c'' hr => ?_⟩
  · have := hall [] _ .nil
    rwa [put_node] at this
  · have hn' : NoInstall (c.put id (Process.restart (c.node id)) c.net).net := hn
    refine (Rebuilding.run hn' ?_ hr).rebuilt
    rw [put_procs]
    refine ⟨.restart hord.intact hord.sorted, rfl, (restart_commitIndex _).2, ?_, hiff.mpr hcond⟩
    have hlog : (Process.restart (c.node id)).node.log = (c.node id).log := hord.intact.restart.2.2.1
    have hend : (c.node id).fileEnd = (back (c.node id).log).index := Intact.fileEnd hord.intact
    rw [(Counters.restart _).applied, (restart_commitIndex _).1, hlog, hend]
    omega

/-- A leader restarts over a snapshot of its one entry and commits another. -/
theorem restart_rebuilds_trio : ∃ c : Cluster, (c.node Trio.a).lastApplied = 2 ∧
    Rebuilt (some ⟨1, 1, [7]⟩) 1 (c.node Trio.a) := by
  obtain ⟨c, h, hp⟩ := Runs.exists_run_of_exec (step Trio.peers) (fun _ _ => True) start
    (Trio.election Trio.a Trio.b 1 0 0 ++ [.propose Trio.a [1]] ++ Trio.heartbeats Trio.a ++
      Trio.exchange Trio.a Trio.b ⟨1, Trio.a, 0, 0, [⟨1, 1, [1]⟩], 0⟩ 1 ++
      [.snapshot Trio.a [7], .snapshot Trio.a [7]])
    (fun c => (c.node Trio.a).stateFile = some ⟨1, Trio.a, [⟨1, 1, [1]⟩]⟩ ∧
      (c.node Trio.a).snapshotFile = some ⟨1, 1, [7]⟩ ∧ (step Trio.peers c (.restart Trio.a)).any fun c' =>
        (Runs.exec (step Trio.peers) (fun c act => goesOn Trio.a c act = true) c'
          (Trio.election Trio.a Trio.b 2 1 1 ++ [.propose Trio.a [2]] ++ Trio.heartbeats Trio.a ++
            Trio.exchange Trio.a Trio.b ⟨2, Trio.a, 1, 1, [⟨2, 2, [2]⟩], 1⟩ 2)).any
          fun c'' => (c''.node Trio.a).lastApplied = 2) rfl
  obtain ⟨hstate, hsnap, hp⟩ := of_decide_eq_true hp
  obtain ⟨c', hs, hp⟩ := (Option.any_eq_true _ _).mp hp
  obtain ⟨c'', h', hp⟩ := Runs.exists_run_of_exec _ _ _ _ _ hp
  refine ⟨c'', of_decide_eq_true hp, ?_⟩
  have hre := (restart_rebuilds h hs).mpr (fun file hfile e he hlt => ?_) _ _ h'
  · rwa [RaftNode.snapshotEnd, hsnap] at hre
  · rw [hstate] at hfile
    cases hfile
    rw [List.mem_singleton.mp he, RaftNode.snapshotEnd, hsnap] at hlt
    exact absurd hlt (by decide)

/-- A leader that has applied an entry restarts, and its state machine never hears of it again. -/
theorem restart_forgets : ∃ acts c c', Runs.Run (step Trio.peers) (fun _ _ => True) start acts c ∧
    step Trio.peers c (.restart Trio.a) = some c' ∧
    ¬ Rebuilt (c.node Trio.a).snapshotFile (c.node Trio.a).snapshotEnd (c'.node Trio.a) := by
  obtain ⟨c, h, hp⟩ := Runs.exists_run_of_exec (step Trio.peers) (fun _ _ => True) start
    (Trio.election Trio.a Trio.b 1 0 0 ++ [.propose Trio.a [1]] ++ Trio.heartbeats Trio.a ++
      Trio.exchange Trio.a Trio.b ⟨1, Trio.a, 0, 0, [⟨1, 1, [1]⟩], 0⟩ 1)
    (fun c => (step Trio.peers c (.restart Trio.a)).any fun c' => callbacks (c'.node Trio.a).upper ≠
      restoreCalls (c.node Trio.a).snapshotFile ++
        applies (between (c'.node Trio.a).log (c.node Trio.a).snapshotEnd (c'.node Trio.a).lastApplied)) rfl
  obtain ⟨c', hs, hp⟩ := (Option.any_eq_true _ _).mp hp
  have hne : callbacks (c'.node Trio.a).upper ≠ restoreCalls (c.node Trio.a).snapshotFile ++
      applies (between (c'.node Trio.a).log (c.node Trio.a).snapshotEnd (c'.node Trio.a).lastApplied) :=
    of_decide_eq_true hp
  exact ⟨_, c, c', h, hs, hne⟩

end MiniStorage.Raft
