import MiniStorage.Raft.Lone

namespace MiniStorage.Raft

open RaftNode

variable {peers : List Bytes} {id : Bytes} {p p' : Process} {net net' : List Packet} {act : Action} {acts : List Action}
  {n : RaftNode} {log rest : List LogEntry} {e : LogEntry} {j k : Nat}

/-- The steps after which a log still numbers on from its snapshot: Propose finds an entry to go on from, no truncation
takes the log back to before what is applied, and no process stops between TakeSnapshot's rename and its trimming while
the log holds what the new file covers. -/
def numbersOn (p : Process) : Action → Bool
  | .propose _ _ => p.node.state = .leader → p.node.log.tail ≠ [] ∨ p.node.snapshotLastIndex = 0
  | .deliver ⟨_, _, .appendEntries req⟩ => keepsApplied p.node req
  | .restart _ | .crashHandling _ => p.snapshot.all fun call =>
      call.written → p.node.log.tail.all (call.snap.lastIncludedIndex < ·.index)
  | _ => true

/-- All that follows the sentinel lies behind a position. -/
def Above (log : List LogEntry) (k : Nat) : Prop := ∀ e ∈ log.tail, k < e.index

theorem back_mem_tail (h : log = {} :: log.tail) (hne : log.tail ≠ []) : back log ∈ log.tail := by
  obtain ⟨e, es, ht⟩ := List.exists_cons_of_ne_nil hne
  rw [h, List.tail_cons, ht, back, List.getLastD_cons, List.getLastD_cons]
  exact List.getLastD_mem_cons

theorem Above.lt_back (h : Above log k) (hlog : log = {} :: log.tail) (hne : log.tail ≠ []) : k < (back log).index :=
  h _ (back_mem_tail hlog hne)

theorem Above.of_isPrefix (h : Above log k) (hp : rest <+: log) : Above rest k :=
  fun e he => h e (hp.sublist.tail.subset he)

theorem above_zero (hlog : log = {} :: log.tail) (hs : Sorted log) : Above log 0 := by
  rw [hlog] at hs
  exact (List.pairwise_cons.mp hs).1

theorem Above.append_one (h : Above log k) (hlog : log = {} :: log.tail) (hroom : log.tail ≠ [] ∨ k = 0)
    (he : (back log).index < e.index) : Above (log ++ [e]) k := by
  intro x hx
  rw [hlog, List.cons_append, List.tail_cons, List.mem_append, List.mem_singleton] at hx
  rcases hx with hx | rfl
  · exact h x hx
  · rcases hroom with hne | rfl
    · exact (h.lt_back hlog hne).trans he
    · exact Nat.zero_lt_of_lt he

theorem Above.appendNew (h : Above log k) (hlog : log = {} :: log.tail) (hroom : log.tail ≠ [] ∨ k = 0)
    (entries : List LogEntry) : Above (appendNew log entries) k := by
  rw [RaftNode.appendNew]
  induction entries generalizing log with
  | nil => exact h
  | cons e es ih =>
      rw [List.foldl_cons]
      split
      · next hlt =>
        have htail : (log ++ [e]).tail = log.tail ++ [e] := by rw [hlog]; rfl
        apply ih (h.append_one hlog hroom hlt)
        · rw [htail, ← List.cons_append, ← hlog]
        · exact .inl (by rw [htail]; simp)
      · exact ih h hlog hroom

theorem tail_trimLog (hlog : log = {} :: log.tail) (k : Nat) :
    (trimLog log k).tail = log.tail.filter (k < ·.index) := by
  rw [trimLog, hlog]
  rfl

theorem above_trimLog (hlog : log = {} :: log.tail) (k : Nat) : Above (trimLog log k) k := by
  intro e he
  rw [tail_trimLog hlog] at he
  exact of_decide_eq_true (List.mem_filter.mp he).2

theorem Above.trimLog (h : Above log k) (hlog : log = {} :: log.tail) (j : Nat) : Above (trimLog log j) k := by
  intro e he
  rw [tail_trimLog hlog] at he
  exact h e (List.mem_filter.mp he).1

/-- HandleAppendEntries comes to its append loop only if there is something to append to, or no snapshot. -/
theorem room_of_le (hlog : log = {} :: log.tail) {s i : Nat} (hs : s ≤ i) (hi : i ≤ (back log).index) :
    log.tail ≠ [] ∨ s = 0 := by
  rcases eq_or_ne log.tail [] with hnil | hne
  · rw [hlog, hnil] at hi
    exact .inr (Nat.le_zero.mp (hs.trans hi))
  · exact .inl hne

theorem ProcStep.above (hi : p.node.Intact) (hp : ProcStep peers id p net act p' net') (hcrash : noCrash act = true)
    (hg : numbersOn p act = true) (h : Above p.node.log k) (hk : p.node.snapshotLastIndex = 0 → k = 0) :
    Above p'.node.log k := by
  cases hp.logChange with
  | same hlog => rw [hlog]; exact h
  | propose command hstate hn =>
      have hroom := of_decide_eq_true hg hstate
      rw [hn]
      exact h.append_one hi.sentinel (hroom.imp_right hk) (Nat.lt_succ_self _)
  | trim data snap hsnap hn hnone => rw [hn]; exact h.trimLog hi.sentinel _
  | truncate src req hmem hterm hsnap hback e he hne log hlog hn =>
      rw [hn]; exact h.of_isPrefix (popFrom_isPrefix hlog).1
  | accept src req hmem hterm hsnap hback hprev hn =>
      rw [hn, acceptEntries_log, follow_log]
      exact h.appendNew hi.sentinel ((room_of_le hi.sentinel hsnap hback).imp_right hk) _
  | install src req hmem =>
      rw [hp.of_install]
      have ho := handleInstallSnapshot_cases p.node req.leaderId req
      generalize p.node.handleInstallSnapshot req.leaderId req = r at ho ⊢
      cases ho with
      | stale => exact h
      | skip => exact (follow_log req.leaderId req.term).symm ▸ h
      | install => exact h.trimLog hi.sentinel _
  | restart | crashHandling => cases hcrash

/-- How the log stands to the snapshot position, to what is committed and to the snapshot file. Between TakeSnapshot's
rename and its trimming the file may cover entries of the log. -/
structure Indexed (p : Process) : Prop where
  above : Above p.node.log p.node.snapshotLastIndex
  reach : p.node.log.tail ≠ [] ∨ p.node.snapshotLastIndex = 0 → p.node.commitIndex ≤ (back p.node.log).index
  captured : ∀ call, p.snapshot = some call → 0 < call.snap.lastIncludedIndex
  file : ∀ file, p.node.snapshotFile = some file → 0 < file.lastIncludedIndex ∧
    (0 < p.node.snapshotLastIndex ∧ Above p.node.log file.lastIncludedIndex ∨
      p.snapshot = some ⟨file, true⟩)

theorem Indexed.snapshot_moves (h : Indexed p) (hi : p.node.Intact) (hp : ProcStep peers id p net act p' net')
    (hcrash : noCrash act = true) : p'.node.snapshotLastIndex = p.node.snapshotLastIndex ∨
      0 < p'.node.snapshotLastIndex ∧ Above p'.node.log p'.node.snapshotLastIndex := by
  cases hp.logChange with
  | same hlog hsnap => exact .inl hsnap
  | propose command hstate hn => exact .inl (by rw [hn]; rfl)
  | trim data snap hsnap hn hnone =>
      rw [hn]
      exact .inr ⟨h.captured _ hsnap, above_trimLog hi.sentinel _⟩
  | truncate src req hmem hterm hsnap hback e he hne log hlog hn =>
      exact .inl (by rw [hn]; exact follow_snapshotLastIndex req.leaderId req.term)
  | accept src req hmem hterm hsnap hback hprev hn =>
      exact .inl (by rw [hn, acceptEntries_snapshotLastIndex, follow_snapshotLastIndex])
  | install src req hmem =>
      rw [hp.of_install]
      have ho := handleInstallSnapshot_cases p.node req.leaderId req
      generalize p.node.handleInstallSnapshot req.leaderId req = r at ho ⊢
      cases ho with
      | stale => exact .inl rfl
      | skip => exact .inl (follow_snapshotLastIndex _ _)
      | install hterm hsnap hcommit => exact .inr ⟨Nat.zero_lt_of_lt hcommit, above_trimLog hi.sentinel _⟩
  | restart | crashHandling => cases hcrash

theorem Indexed.step_above (h : Indexed p) (hi : p.node.Intact) (hp : ProcStep peers id p net act p' net')
    (hcrash : noCrash act = true) (hg : numbersOn p act = true) : Above p'.node.log p'.node.snapshotLastIndex := by
  rcases h.snapshot_moves hi hp hcrash with hsame | ⟨-, habove⟩
  · rw [hsame]
    exact hp.above hi hcrash hg h.above fun h0 => h0
  · exact habove

theorem back_le_trimLog (hlog : log = {} :: log.tail) (hs : Sorted log) (hne : (trimLog log k).tail ≠ []) :
    log.tail ≠ [] ∧ (back log).index ≤ (back (trimLog log k)).index := by
  obtain ⟨e, he⟩ := List.exists_mem_of_ne_nil _ hne
  rw [tail_trimLog hlog, List.mem_filter, decide_eq_true_eq] at he
  have hmem : back log ∈ log.tail := back_mem_tail hlog (List.ne_nil_of_mem he.1)
  refine ⟨List.ne_nil_of_mem he.1, (hs.trimLog hlog k).le_back (List.mem_of_mem_tail ?_)⟩
  rw [tail_trimLog hlog, List.mem_filter, decide_eq_true_eq]
  exact ⟨hmem, he.2.trans_le (hs.le_back (List.mem_of_mem_tail he.1))⟩

theorem ProcStep.commit_moves (hp : ProcStep peers id p net act p' net') (hcrash : noCrash act = true)
    (hinst : ∀ src req, act ≠ .deliver ⟨src, id, .installSnapshot req⟩) :
    p'.node.commitIndex = p.node.commitIndex ∨ p'.node.commitIndex ≤ (back p'.node.log).index := by
  cases hp.commitChange with
  | same hcommit => exact .inl hcommit
  | commit k hk => exact .inr (hk.commitIndex.trans_le hk.back)
  | install src req => exact absurd rfl (hinst src req)
  | restart | crashHandling => cases hcrash

theorem Indexed.install_reach (h : Indexed p) (hlog : p.node.log = {} :: p.node.log.tail) (leader : Bytes)
    (req : InstallSnapshotRequest) (hroom : (p.node.handleInstallSnapshot leader req).1.log.tail ≠ [] ∨
      (p.node.handleInstallSnapshot leader req).1.snapshotLastIndex = 0) :
    (p.node.handleInstallSnapshot leader req).1.commitIndex ≤
      (back (p.node.handleInstallSnapshot leader req).1.log).index := by
  have ho := handleInstallSnapshot_cases p.node leader req
  generalize p.node.handleInstallSnapshot leader req = r at ho hroom ⊢
  cases ho with
  | stale => exact h.reach hroom
  | skip =>
      have hcommit : (p.node.follow leader req.term).commitIndex = p.node.commitIndex := catchUp_commitIndex _
      dsimp only at hroom ⊢
      rw [follow_log, follow_snapshotLastIndex] at hroom
      rw [hcommit, follow_log]
      exact h.reach hroom
  | install hterm hsnap hcommit =>
      have hne := hroom.resolve_right (Nat.ne_zero_of_lt hcommit)
      exact ((above_trimLog hlog _).lt_back (trimLog_sentinel hlog _) hne).le

theorem Indexed.step_reach (h : Indexed p) (hs : Standing ⟨id, peers⟩ p) (hp : ProcStep peers id p net act p' net')
    (hcrash : noCrash act = true) (hg : numbersOn p act = true)
    (hroom : p'.node.log.tail ≠ [] ∨ p'.node.snapshotLastIndex = 0) :
    p'.node.commitIndex ≤ (back p'.node.log).index := by
  have hlog := hs.intact.sentinel
  have hnil : p.node.log ≠ [] := by rw [hlog]; exact List.cons_ne_nil _ _
  have hsorted := (hs.step hp).sorted
  by_cases hinst : ∃ src req, act = .deliver ⟨src, id, .installSnapshot req⟩
  · obtain ⟨src, req, rfl⟩ := hinst
    rw [hp.of_install] at hroom ⊢
    exact h.install_reach hlog req.leaderId req hroom
  push Not at hinst
  rcases hp.commit_moves hcrash hinst with hcommit | hle
  · rw [hcommit]
    cases hp.logChange with
    | same hsame hsnap =>
        rw [hsame, hsnap] at hroom
        rw [hsame]
        exact h.reach hroom
    | propose command hstate hn =>
        have hgrows : p.node.log <+: p'.node.log := by
          rw [hn]
          exact List.prefix_append _ _
        exact (h.reach (of_decide_eq_true hg hstate)).trans (hsorted.back_le hgrows hnil)
    | trim data snap hsnap hn hnone =>
        rw [hn] at hroom ⊢
        have hpos := h.captured _ hsnap
        obtain ⟨hne, hle⟩ := back_le_trimLog hlog hs.sorted (hroom.resolve_right hpos.ne')
        exact (h.reach (.inl hne)).trans hle
    | truncate src req hmem hterm hsnap hback e he hne rest hrest hn =>
        have hrest' : p'.node.log = rest := by rw [hn]; rfl
        have hsnap' : p'.node.snapshotLastIndex = p.node.snapshotLastIndex := by
          rw [hn]
          exact follow_snapshotLastIndex req.leaderId req.term
        obtain ⟨hpre, hnil⟩ := popFrom_isPrefix hrest
        have hkeep : p.node.lastApplied ≤ p.node.snapshotLastIndex ∨ p.node.lastApplied ≤ (back rest).index := by
          have hk := of_decide_eq_true hg (truncates_of hterm hsnap hback he hne)
          simpa [hrest] using hk
        rw [hs.counted.applied] at hkeep
        rw [hrest'] at hroom ⊢
        rw [hsnap'] at hroom
        rcases hkeep with hle | hle
        · rcases hroom with hne' | hzero
          · exact hle.trans ((h.above.of_isPrefix hpre).lt_back (sentinel_of_isPrefix hlog hpre hnil) hne').le
          · rw [hzero] at hle
            exact hle.trans (Nat.zero_le _)
        · exact hle
    | accept src req hmem hterm hsnap hback hprev hn =>
        have hgrows : p.node.log <+: p'.node.log := by
          rw [hn, acceptEntries_log, follow_log]
          exact appendNew_grows _ _
        exact (h.reach (room_of_le hlog hsnap hback)).trans (hsorted.back_le hgrows hnil)
    | install src req => exact absurd rfl (hinst src req)
    | restart | crashHandling => cases hcrash
  · exact hle

/-- The snapshot file after a step: what it covers lies before the log, or is about to be trimmed. -/
theorem Indexed.step_file (h : Indexed p) (hs : Standing ⟨id, peers⟩ p) (hp : ProcStep peers id p net act p' net')
    (hcrash : noCrash act = true) (hg : numbersOn p act = true) (file : SnapshotMetadata)
    (hfile : p'.node.snapshotFile = some file) : 0 < file.lastIncludedIndex ∧
      (0 < p'.node.snapshotLastIndex ∧ Above p'.node.log file.lastIncludedIndex ∨ p'.snapshot = some ⟨file, true⟩) := by
  have hi := hs.intact
  -- a file that stays
  have hkeep (hf : p.node.snapshotFile = some file) : 0 < file.lastIncludedIndex ∧
      (0 < p'.node.snapshotLastIndex ∧ Above p'.node.log file.lastIncludedIndex ∨ p'.snapshot = some ⟨file, true⟩) := by
    obtain ⟨hpos, hcase⟩ := h.file file hf
    refine ⟨hpos, ?_⟩
    rcases hcase with ⟨hsnap, habove⟩ | hcall
    · have habove' : Above p'.node.log file.lastIncludedIndex :=
        hp.above hi hcrash hg habove fun h0 => absurd h0 hsnap.ne'
      rcases h.snapshot_moves hi hp hcrash with hsame | ⟨hpos', -⟩
      · exact .inl ⟨hsame ▸ hsnap, habove'⟩
      · exact .inl ⟨hpos', habove'⟩
    · rcases hp.snapshot_written hcrash hcall with hstay | ⟨-, hn⟩
      · exact .inr hstay
      · rw [hn]
        exact .inl ⟨hpos, above_trimLog hi.sentinel _⟩
  by_cases hinst : ∃ src req, act = .deliver ⟨src, id, .installSnapshot req⟩
  · obtain ⟨src, req, rfl⟩ := hinst
    have hn := hp.of_install
    have ho := handleInstallSnapshot_cases p.node req.leaderId req
    generalize p.node.handleInstallSnapshot req.leaderId req = r at hn ho
    cases ho with
    | stale => exact hkeep (by rw [← hfile, hn])
    | skip => exact hkeep ((catchUp_snapshotFile req.term).symm.trans (by rw [← hfile, hn]; rfl))
    | install hterm hsnap hcommit =>
        rw [hn] at hfile ⊢
        cases hfile
        exact ⟨Nat.zero_lt_of_lt hcommit, .inl ⟨Nat.zero_lt_of_lt hcommit, above_trimLog hi.sentinel _⟩⟩
  · push Not at hinst
    rcases hp.snapshotFile_cases hcrash hinst with hsame | ⟨snap, hcall, hcall', hf⟩
    · exact hkeep (hsame ▸ hfile)
    · obtain rfl := Option.some.inj (hf.symm.trans hfile)
      exact ⟨h.captured _ hcall, .inr hcall'⟩

theorem Indexed.step_captured (h : Indexed p) (hp : ProcStep peers id p net act p' net') (call : SnapshotCall)
    (hcall : p'.snapshot = some call) : 0 < call.snap.lastIncludedIndex := by
  rcases hp.snapshot_cases with hsame | ⟨data, snap, hcap, hsnap⟩ | ⟨snap, hold, hsnap⟩ | hnone
  · exact h.captured call (hsame ▸ hcall)
  · obtain rfl := Option.some.inj (hsnap.symm.trans hcall)
    rw [captureSnapshot, Option.ite_none_left_eq_some] at hcap
    obtain ⟨hlt, hcap⟩ := hcap
    cases hcap
    exact Nat.zero_lt_of_lt (Nat.lt_of_not_le hlt)
  · obtain rfl := Option.some.inj (hsnap.symm.trans hcall)
    exact h.captured ⟨snap, false⟩ hold
  · rw [hnone] at hcall
    cases hcall

theorem Indexed.restart (hi : n.Intact) (hs : Sorted n.log) (hfile : ∀ file, n.snapshotFile = some file →
    0 < file.lastIncludedIndex ∧ Above n.log file.lastIncludedIndex) : Indexed (Process.restart n) := by
  obtain ⟨hcommit, hsnap⟩ := restart_commitIndex n
  have hlog := hi.restart.2.2.1
  have habove : Above n.log n.snapshotEnd := by
    rw [snapshotEnd]
    cases hf : n.snapshotFile with
    | none => exact above_zero hi.sentinel hs
    | some file => exact (hfile file hf).2
  refine ⟨?_, ?_, ?_, ?_⟩
  · rw [hlog, hsnap]
    exact habove
  · rw [hlog, hsnap, hcommit, Intact.fileEnd hi]
    rintro (hne | hzero)
    · exact max_le le_rfl (habove.lt_back hi.sentinel hne).le
    · exact max_le le_rfl (hzero.le.trans (Nat.zero_le _))
  · intro call hcall
    cases hcall
  · intro file hf
    rw [restart_snapshotFile] at hf
    obtain ⟨hpos, hab⟩ := hfile file hf
    refine ⟨hpos, .inl ⟨?_, hlog ▸ hab⟩⟩
    rw [hsnap, snapshotEnd, hf]
    exact hpos

theorem Indexed.files (h : Indexed p)
    (hg : (p.snapshot.all fun call => call.written → p.node.log.tail.all (call.snap.lastIncludedIndex < ·.index)) =
      true)
    (file : SnapshotMetadata) (hf : p.node.snapshotFile = some file) :
    0 < file.lastIncludedIndex ∧ Above p.node.log file.lastIncludedIndex := by
  obtain ⟨hpos, ⟨-, habove⟩ | hcall⟩ := h.file file hf
  · exact ⟨hpos, habove⟩
  · refine ⟨hpos, fun e he => ?_⟩
    rw [hcall] at hg
    simp at hg
    exact hg e he

theorem Indexed.step (h : Indexed p) (hs : Standing ⟨id, peers⟩ p) (hp : ProcStep peers id p net act p' net')
    (hg : numbersOn p act = true) : Indexed p' := by
  cases hcrash : noCrash act with
  | true =>
      exact ⟨h.step_above hs.intact hp hcrash hg, h.step_reach hs hp hcrash hg, h.step_captured hp,
        h.step_file hs hp hcrash hg⟩
  | false =>
      cases hp with
      | restart => exact .restart hs.intact hs.sorted (h.files hg)
      | crashHandling => exact .restart (.persistState hs.intact.sentinel) hs.sorted (h.files hg)
      | _ => cases hcrash

theorem Indexed.fresh : Indexed fresh where
  above e he := by cases he
  reach _ := le_rfl
  captured _ h := by cases h
  file _ h := by cases h

/-- Behind the sentinel the indices of a log grow and lie behind the snapshot, and the index that Propose gives to a
command is new exactly if the log holds another entry or there is no snapshot. -/
theorem log_index (hr : Runs.Run (loneStep peers id) (fun p act => numbersOn p act = true) fresh acts p)
    (command : Bytes) : Sorted p.node.log ∧ (∀ e ∈ p.node.log.tail, p.node.snapshotLastIndex < e.index) ∧
      (p.node.snapshotLastIndex < (p.node.propose ⟨id, peers⟩ command).2.index ∧
          p.node.commitIndex < (p.node.propose ⟨id, peers⟩ command).2.index ↔
        p.node.log.tail ≠ [] ∨ p.node.snapshotLastIndex = 0) := by
  have hinv : Standing ⟨id, peers⟩ p ∧ Indexed p := by
    refine Runs.Run.invariant (I := fun p => Standing ⟨id, peers⟩ p ∧ Indexed p) (fun s a t hs hg hst => ?_)
      ⟨.fresh, .fresh⟩ hr
    obtain ⟨hs, hx⟩ := hs
    obtain ⟨net', hp⟩ := loneStep_cases hst
    exact ⟨hs.step hp, hx.step hs hp hg⟩
  obtain ⟨hs, hx⟩ := hinv
  refine ⟨hs.sorted, hx.above, ?_⟩
  show _ < (back p.node.log).index + 1 ∧ _ < (back p.node.log).index + 1 ↔ _
  constructor
  · rintro ⟨hsnap, -⟩
    exact room_of_le hs.intact.sentinel (Nat.lt_succ_iff.mp hsnap) le_rfl
  · intro hroom
    refine ⟨Nat.lt_succ_iff.mpr ?_, Nat.lt_succ_iff.mpr (hx.reach hroom)⟩
    rcases hroom with hne | hzero
    · exact (hx.above.lt_back hs.intact.sentinel hne).le
    · rw [hzero]
      exact Nat.zero_le _

/-- The second command comes while the snapshot of the first is written. -/
theorem log_index_third :
    ∃ acts p, Runs.Run (loneStep [Trio.a] Trio.a) (fun p act => numbersOn p act = true) fresh acts p ∧
    p.node.snapshotLastIndex = 1 ∧ 1 < (p.node.propose ⟨Trio.a, [Trio.a]⟩ [3]).2.index := by
  obtain ⟨p, hr, hp⟩ := Runs.exists_run_of_exec (loneStep [Trio.a] Trio.a) (fun p act => numbersOn p act = true) fresh
    (election Trio.a ++ [.propose Trio.a [1], .proposeNext Trio.a 0 false, .snapshot Trio.a [2], .snapshot Trio.a [2],
      .propose Trio.a [2], .snapshot Trio.a [2]])
    (fun p => p.node.snapshotLastIndex = 1 && p.node.log.tail ≠ []) (by decide)
  rw [Bool.and_eq_true, decide_eq_true_eq, decide_eq_true_eq] at hp
  obtain ⟨hsnap, hne⟩ := hp
  obtain ⟨-, -, hiff⟩ := log_index hr [3]
  exact ⟨_, p, hr, hsnap, hsnap ▸ (hiff.mpr (.inl hne)).1⟩

/-- After a snapshot of all there is, Propose gives out the first index once more. -/
theorem log_index_reused : ∃ acts p, Runs.Run (loneStep [Trio.a] Trio.a) (fun _ _ => True) fresh acts p ∧
    p.node.state = .leader ∧ p.node.snapshotLastIndex = 1 ∧ p.node.commitIndex = 1 ∧
      (p.node.propose ⟨Trio.a, [Trio.a]⟩ [3]).2.index = 1 := by
  obtain ⟨p, hr, hp⟩ := Runs.exists_run_of_exec (loneStep [Trio.a] Trio.a) (fun _ _ => True) fresh
    (election Trio.a ++ [.propose Trio.a [1], .proposeNext Trio.a 0 false, .snapshot Trio.a [2], .snapshot Trio.a [2],
      .snapshot Trio.a [2]])
    (fun p => p.node.state = .leader && (p.node.snapshotLastIndex = 1 && (p.node.commitIndex = 1 &&
      (p.node.propose ⟨Trio.a, [Trio.a]⟩ [3]).2.index = 1))) (by decide)
  simp only [Bool.and_eq_true, decide_eq_true_eq] at hp
  exact ⟨_, p, hr, hp⟩

end MiniStorage.Raft
