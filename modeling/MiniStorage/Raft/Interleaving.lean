import MiniStorage.Raft.Compaction
import MiniStorage.Raft.LogIndex

namespace MiniStorage.Raft

open RaftNode

variable {peers : List Bytes} {id : Bytes} {p p' q : Process} {net net' : List Packet} {act : Action}
  {acts acts' : List Action} {n : RaftNode} {log rest : List LogEntry} {e : LogEntry} {i j k : Nat}

/-- The entries of a request follow on its previous one. -/
def gapless : Action → Bool
  | .deliver ⟨_, _, .appendEntries req⟩ =>
      req.entries.map (·.index) = List.range' (req.prevLogIndex + 1) req.entries.length
  | _ => true

/-- HandleInstallSnapshot takes the snapshot. -/
def RaftNode.installs (n : RaftNode) (req : InstallSnapshotRequest) : Bool :=
  n.currentTerm ≤ req.term && n.snapshotLastTerm < req.lastIncludedIndex && n.commitIndex < req.lastIncludedIndex

/-- No snapshot is installed between the first section of TakeSnapshot and its last, and no truncation takes off what
is committed. -/
def keepsApart (p : Process) : Action → Bool
  | .deliver ⟨_, _, .installSnapshot req⟩ => p.node.installs req → p.snapshot = none
  | .deliver ⟨_, _, .appendEntries req⟩ => p.node.truncates req →
      p.node.commitIndex ≤ p.node.snapshotLastIndex ∨ p.node.commitIndex < req.prevLogIndex
  | _ => true

theorem Reaching.of_isPrefix (h : Reaching log k) (hs : Sorted log) (hp : rest <+: log) (hne : rest ≠ []) :
    Reaching rest k := by
  intro i hlt hle
  obtain ⟨e, he, rfl⟩ := h i hlt (hle.trans (hs.back_le hp hne))
  obtain ⟨X, rfl⟩ := hp
  rcases List.mem_append.mp he with he | he
  · exact ⟨e, he, rfl⟩
  · exact absurd ((List.pairwise_append.mp hs).2.2 _ (back_mem hne) e he) (Nat.not_lt.mpr hle)

theorem Reaching.append_one (h : Reaching log k) (he : e.index = (back log).index + 1) : Reaching (log ++ [e]) k := by
  intro i hlt hle
  have hlast : back (log ++ [e]) = e := by simp [back]
  rw [hlast, he] at hle
  rcases Nat.lt_or_eq_of_le hle with hle | rfl
  · obtain ⟨x, hx, rfl⟩ := h i hlt (Nat.lt_succ_iff.mp hle)
    exact ⟨x, List.mem_append_left _ hx, rfl⟩
  · exact ⟨e, List.mem_append_right _ (List.mem_singleton_self e), he⟩

theorem Reaching.appendNew (h : Reaching log k) {entries : List LogEntry} (hi : i ≤ (back log).index)
    (hnum : entries.map (·.index) = List.range' (i + 1) entries.length) : Reaching (appendNew log entries) k := by
  rw [RaftNode.appendNew]
  induction entries generalizing log i with
  | nil => exact h
  | cons e es ih =>
      rw [List.map_cons, List.length_cons, List.range'_succ, List.cons.injEq] at hnum
      obtain ⟨he, hes⟩ := hnum
      rw [List.foldl_cons]
      split
      · next hlt =>
        have hnext : e.index = (back log).index + 1 := by omega
        have hlast : back (log ++ [e]) = e := by simp [back]
        exact ih (h.append_one hnext) (by rw [hlast, he]) hes
      · next hge => exact ih h (by omega) hes

theorem mem_trimLog (hlog : log = {} :: log.tail) (he : e ∈ log) (hk : k < e.index) : e ∈ trimLog log k := by
  rw [hlog, List.mem_cons] at he
  rcases he with rfl | he
  · exact absurd hk (Nat.not_lt_zero k)
  · apply List.mem_of_mem_tail
    rw [tail_trimLog hlog, List.mem_filter]
    exact ⟨he, decide_eq_true hk⟩

theorem Reaching.trimLog (h : Reaching log k) (hlog : log = {} :: log.tail) (hs : Sorted log) (hk : k ≤ j) :
    Reaching (trimLog log j) j := by
  intro i hlt hle
  have hne : RaftNode.trimLog log j ≠ [] := by
    rw [trimLog_sentinel hlog]
    exact List.cons_ne_nil _ _
  have hback : (back (RaftNode.trimLog log j)).index ≤ (back log).index :=
    hs.le_back ((trimLog_sublist hlog j).subset (back_mem hne))
  obtain ⟨e, he, rfl⟩ := h i (hk.trans_lt hlt) (hle.trans hback)
  exact ⟨e, mem_trimLog hlog he hlt, rfl⟩

/-- What is committed lies within the snapshot or within the log. -/
def Covers (n : RaftNode) : Prop := n.commitIndex ≤ max n.snapshotLastIndex (back n.log).index

/-- How the log, the snapshot file and the call that takes a snapshot stand to the snapshot position. -/
structure Apart (p : Process) : Prop where
  reaching : Reaching p.node.log p.node.snapshotLastIndex
  covers : Covers p.node
  ahead : ∀ call, p.snapshot = some call → p.node.snapshotLastIndex < call.snap.lastIncludedIndex
  file : (∀ call, p.snapshot = some call → call.written = false) → p.node.snapshotEnd = p.node.snapshotLastIndex
  written : ∀ call, p.snapshot = some call → call.written = true → p.node.snapshotEnd = call.snap.lastIncludedIndex

theorem Apart.fresh : Apart fresh where
  reaching i hlt hle := absurd hle (Nat.not_le.mpr hlt)
  covers := le_rfl
  ahead _ h := by cases h
  file _ := rfl
  written _ h := by cases h

theorem Covers.trim (hc : Covers n) (h : Reaching n.log n.snapshotLastIndex) (hlog : n.log = {} :: n.log.tail)
    (hs : Sorted n.log) (hk : n.snapshotLastIndex ≤ k) : n.commitIndex ≤ max k (back (trimLog n.log k)).index := by
  rw [Covers] at hc
  rcases Nat.lt_or_ge k n.commitIndex with hlt | hge
  · obtain ⟨e, he, hi⟩ := h n.commitIndex (hk.trans_lt hlt) (by omega)
    have hle := (hs.trimLog hlog k).le_back (mem_trimLog hlog he (hi ▸ hlt))
    omega
  · exact hge.trans (le_max_left _ _)

theorem Covers.pop (hc : Covers n) (h : Reaching n.log n.snapshotLastIndex) (hs : Sorted n.log)
    (hrest : popFrom n.log k = some rest) (hk : n.commitIndex ≤ n.snapshotLastIndex ∨ n.commitIndex < k) :
    n.commitIndex ≤ max n.snapshotLastIndex (back rest).index := by
  rw [Covers] at hc
  rcases Nat.lt_or_ge n.snapshotLastIndex n.commitIndex with hlt | hge
  · obtain ⟨e, he, hi⟩ := h n.commitIndex hlt (by omega)
    obtain ⟨X, hX, hpast⟩ := popFrom_split hrest
    rw [hX] at he hs
    rcases List.mem_append.mp he with he | he
    · have hle := Sorted.le_back (hs.sublist (List.sublist_append_left _ _)) he
      omega
    · have := hpast e he
      omega
  · exact hge.trans (le_max_left _ _)

/-- Where nothing is installed, the log reaches from the snapshot to its end, and what is committed stays covered. -/
theorem Apart.step_log (h : Apart p) (hs : Standing ⟨id, peers⟩ p) (hp : ProcStep peers id p net act p' net')
    (hcrash : noCrash act = true) (hinst : ∀ src req, act ≠ .deliver ⟨src, id, .installSnapshot req⟩)
    (hgap : gapless act = true) (hg : keepsApart p act = true) :
    Reaching p'.node.log p'.node.snapshotLastIndex ∧ Covers p'.node := by
  have hlog := hs.intact.sentinel
  have hnil : p.node.log ≠ [] := by rw [hlog]; exact List.cons_ne_nil _ _
  have hsorted := (hs.step hp).sorted
  -- what is committed in this step is in the log
  have hcovers (hold : p.node.commitIndex ≤ max p'.node.snapshotLastIndex (back p'.node.log).index) :
    Covers p'.node := by
    rcases hp.commit_moves hcrash hinst with hsame | hle
    · rw [Covers, hsame]
      exact hold
    · exact hle.trans (le_max_right _ _)
  have hgrows (hsnap : p'.node.snapshotLastIndex = p.node.snapshotLastIndex) (hpre : p.node.log <+: p'.node.log) :
      Covers p'.node := by
    apply hcovers
    rw [hsnap]
    exact h.covers.trans (max_le_max le_rfl (hsorted.back_le hpre hnil))
  cases hp.logChange with
  | same hsame hsnap =>
      rw [hsame, hsnap]
      exact ⟨h.reaching, hgrows hsnap (hsame ▸ List.prefix_refl _)⟩
  | propose command hstate hn =>
      have hsnap : p'.node.snapshotLastIndex = p.node.snapshotLastIndex := by rw [hn]; rfl
      have hlog' : p'.node.log = p.node.log ++ [(p.node.propose ⟨id, peers⟩ command).2] := by rw [hn]; rfl
      refine ⟨?_, hgrows hsnap (hlog' ▸ List.prefix_append _ _)⟩
      rw [hsnap, hlog']
      exact h.reaching.append_one rfl
  | trim data snap hcall hn hnone =>
      have hlt := h.ahead _ hcall
      have hsnap : p'.node.snapshotLastIndex = snap.lastIncludedIndex := by rw [hn]; rfl
      have hlog' : p'.node.log = trimLog p.node.log snap.lastIncludedIndex := by rw [hn]; rfl
      refine ⟨?_, hcovers ?_⟩
      · rw [hsnap, hlog']
        exact h.reaching.trimLog hlog hs.sorted hlt.le
      · rw [hsnap, hlog']
        exact h.covers.trim h.reaching hlog hs.sorted hlt.le
  | truncate src req hmem hterm hle hback e he hne rest hrest hn =>
      have hsnap : p'.node.snapshotLastIndex = p.node.snapshotLastIndex := by
        rw [hn]
        exact follow_snapshotLastIndex req.leaderId req.term
      have hlog' : p'.node.log = rest := by rw [hn]; rfl
      obtain ⟨hpre, hne'⟩ := popFrom_isPrefix hrest
      refine ⟨?_, hcovers ?_⟩
      · rw [hsnap, hlog']
        exact h.reaching.of_isPrefix hs.sorted hpre hne'
      · rw [hsnap, hlog']
        exact h.covers.pop h.reaching hs.sorted hrest (of_decide_eq_true hg (truncates_of hterm hle hback he hne))
  | accept src req hmem hterm hle hback hprev hn =>
      have hsnap : p'.node.snapshotLastIndex = p.node.snapshotLastIndex := by
        rw [hn, acceptEntries_snapshotLastIndex, follow_snapshotLastIndex]
      have hlog' : p'.node.log = appendNew p.node.log req.entries := by rw [hn, acceptEntries_log, follow_log]
      refine ⟨?_, hgrows hsnap (hlog' ▸ appendNew_grows _ _)⟩
      rw [hsnap, hlog']
      exact h.reaching.appendNew hback (of_decide_eq_true hgap)
  | install src req => exact absurd rfl (hinst src req)
  | restart | crashHandling => cases hcrash

theorem snapshotEnd_congr {m : RaftNode} (h : m.snapshotFile = n.snapshotFile) : m.snapshotEnd = n.snapshotEnd := by
  rw [snapshotEnd, h, snapshotEnd]

theorem Apart.install (h : Apart p) (hs : Standing ⟨id, peers⟩ p) (leader : Bytes) (req : InstallSnapshotRequest)
    (hidle : p.node.installs req = true → p.snapshot = none) :
    Apart { p with node := (p.node.handleInstallSnapshot leader req).1 } ∧
      p.node.snapshotLastIndex ≤ (p.node.handleInstallSnapshot leader req).1.snapshotLastIndex := by
  have ho := handleInstallSnapshot_cases p.node leader req
  generalize p.node.handleInstallSnapshot leader req = r at ho ⊢
  cases ho with
  | stale => exact ⟨h, le_rfl⟩
  | skip =>
      have hsnap : (p.node.follow leader req.term).snapshotLastIndex = p.node.snapshotLastIndex :=
        follow_snapshotLastIndex leader req.term
      have hcommit : (p.node.follow leader req.term).commitIndex = p.node.commitIndex := catchUp_commitIndex _
      have hfile : (p.node.follow leader req.term).snapshotEnd = p.node.snapshotEnd :=
        snapshotEnd_congr (catchUp_snapshotFile _)
      refine ⟨⟨?_, ?_, ?_, ?_, ?_⟩, hsnap.ge⟩
      · dsimp only
        rw [hsnap, follow_log]
        exact h.reaching
      · dsimp only
        rw [Covers, hcommit, hsnap, follow_log]
        exact h.covers
      · dsimp only
        rw [hsnap]
        exact h.ahead
      · dsimp only
        rw [hfile, hsnap]
        exact h.file
      · dsimp only
        rw [hfile]
        exact h.written
  | install hterm hsnap hcommit =>
      have hnone : p.snapshot = none := hidle (by simp [installs, hterm, hsnap, hcommit])
      have hle : p.node.snapshotLastIndex ≤ req.lastIncludedIndex := by
        have h1 := hs.counted.snap
        have h2 := hs.counted.applied
        omega
      have hno (call : SnapshotCall) : p.snapshot ≠ some call := by rw [hnone]; exact nofun
      refine ⟨⟨?_, ?_, ?_, ?_, ?_⟩, hle⟩
      · exact h.reaching.trimLog hs.intact.sentinel hs.sorted hle
      · exact le_max_left _ _
      · exact fun call hcall => absurd hcall (hno call)
      · exact fun _ => rfl
      · exact fun call hcall => absurd hcall (hno call)

theorem Apart.step (h : Apart p) (hs : Standing ⟨id, peers⟩ p) (hp : ProcStep peers id p net act p' net')
    (hcrash : noCrash act = true) (hgap : gapless act = true) (hg : keepsApart p act = true) :
    Apart p' ∧ p.node.snapshotLastIndex ≤ p'.node.snapshotLastIndex := by
  by_cases hinst : ∃ src req, act = .deliver ⟨src, id, .installSnapshot req⟩
  · obtain ⟨src, req, rfl⟩ := hinst
    rw [hp.of_install]
    exact h.install hs req.leaderId req (of_decide_eq_true hg)
  push Not at hinst
  obtain ⟨hreach, hcovers⟩ := h.step_log hs hp hcrash hinst hgap hg
  cases hp.snapshotChange hcrash hinst with
  | same hcall hfile hindex =>
      have hend := snapshotEnd_congr hfile
      refine ⟨⟨hreach, hcovers, ?_, ?_, ?_⟩, hindex.ge⟩
      · rw [hcall, hindex]
        exact h.ahead
      · rw [hcall, hindex, hend]
        exact h.file
      · rw [hcall, hend]
        exact h.written
  | capture data snap hnone hcap =>
      rw [captureSnapshot, Option.ite_none_left_eq_some] at hcap
      obtain ⟨hlt, hcap⟩ := hcap
      cases hcap
      refine ⟨⟨hreach, hcovers, ?_, ?_, ?_⟩, le_rfl⟩
      · rintro call ⟨⟩
        exact Nat.lt_of_not_le hlt
      · exact fun _ => h.file fun call hcall => by rw [hnone] at hcall; cases hcall
      · rintro call ⟨⟩ hw
        cases hw
  | write snap hcall =>
      refine ⟨⟨hreach, hcovers, ?_, ?_, ?_⟩, le_rfl⟩
      · rintro call ⟨⟩
        exact h.ahead ⟨snap, false⟩ hcall
      · intro hw
        cases hw _ rfl
      · rintro call ⟨⟩ -
        rfl
  | trim snap hcall =>
      refine ⟨⟨hreach, hcovers, ?_, ?_, ?_⟩, (h.ahead _ hcall).le⟩
      · rintro call ⟨⟩
      · exact fun _ => h.written _ hcall rfl
      · rintro call ⟨⟩

/-- A step of one node without a crash, on requests without a hole, that keeps the two snapshots apart. -/
def apart (p : Process) (act : Action) : Bool := noCrash act && gapless act && keepsApart p act

/-- The snapshot position never falls, and whenever no snapshot is being taken the snapshot file is at it and all that
is committed lies within it or is in the log. -/
theorem snapshots_apart (hr : Runs.Run (loneStep peers id) (fun p act => apart p act = true) fresh acts p) :
    (∀ acts' q, Runs.Run (loneStep peers id) (fun p act => apart p act = true) p acts' q →
      p.node.snapshotLastIndex ≤ q.node.snapshotLastIndex) ∧
    (p.snapshot = none → p.node.snapshotEnd = p.node.snapshotLastIndex ∧ ∀ i, 1 ≤ i → i ≤ p.node.commitIndex →
      i ≤ p.node.snapshotLastIndex ∨ ∃ e ∈ p.node.log, e.index = i) := by
  have hstep (s : Process) (act : Action) (t : Process) (hs : Standing ⟨id, peers⟩ s ∧ Apart s)
      (hg : apart s act = true) (hst : loneStep peers id s act = some t) :
      (Standing ⟨id, peers⟩ t ∧ Apart t) ∧ s.node.snapshotLastIndex ≤ t.node.snapshotLastIndex := by
    obtain ⟨net', hp⟩ := loneStep_cases hst
    rw [apart, Bool.and_eq_true, Bool.and_eq_true] at hg
    obtain ⟨⟨hcrash, hgap⟩, hkeep⟩ := hg
    obtain ⟨ht, hle⟩ := hs.2.step hs.1 hp hcrash hgap hkeep
    exact ⟨⟨hs.1.step hp, ht⟩, hle⟩
  have hinv : Standing ⟨id, peers⟩ p ∧ Apart p :=
    Runs.Run.invariant (I := fun p => Standing ⟨id, peers⟩ p ∧ Apart p)
      (fun s act t hs hg hst => (hstep s act t hs hg hst).1) ⟨.fresh, .fresh⟩ hr
  constructor
  · intro acts' q hq
    have hmono := Runs.Run.invariant (I := fun q => (Standing ⟨id, peers⟩ q ∧ Apart q) ∧
      p.node.snapshotLastIndex ≤ q.node.snapshotLastIndex) (fun s act t hs hg hst => by
        obtain ⟨ht, hle⟩ := hstep s act t hs.1 hg hst
        exact ⟨ht, hs.2.trans hle⟩) ⟨hinv, le_rfl⟩ hq
    exact hmono.2
  · intro hnone
    obtain ⟨hs, ha⟩ := hinv
    have hno (call : SnapshotCall) : p.snapshot ≠ some call := by rw [hnone]; exact nofun
    refine ⟨ha.file fun call hcall => absurd hcall (hno call), fun i hpos hle => ?_⟩
    rcases Nat.lt_or_ge p.node.snapshotLastIndex i with hlt | hge
    · have hc := ha.covers
      rw [Covers] at hc
      exact .inr (ha.reaching i hlt (by omega))
    · exact .inl hge

/-- The follower takes a snapshot, and then one of its leader's. -/
theorem snapshots_apart_trio : ∃ acts p acts' q,
    Runs.Run (loneStep Trio.peers Trio.a) (fun p act => apart p act = true) fresh acts p ∧
    Runs.Run (loneStep Trio.peers Trio.a) (fun p act => apart p act = true) p acts' q ∧
    p.node.snapshotEnd = 1 ∧ q.node.snapshotEnd = 3 ∧ p.node.snapshotLastIndex ≤ q.node.snapshotLastIndex := by
  obtain ⟨p, q, hr, hq, hp⟩ := Runs.exists_runs_of_exec (loneStep Trio.peers Trio.a) (fun p act => apart p act = true)
    fresh (firstEntry ++ takeSnapshot Trio.a) [.deliver ⟨Trio.b, Trio.a, .installSnapshot ⟨1, Trio.b, 3, 1, [9]⟩⟩]
    (fun p q => p.node.snapshotEnd = 1 && q.node.snapshotEnd = 3) (by decide)
  rw [Bool.and_eq_true, decide_eq_true_eq, decide_eq_true_eq] at hp
  exact ⟨_, p, _, q, hr, hq, hp.1, hp.2, (snapshots_apart hr).1 _ q hq⟩

/-- A snapshot up to 3 is installed after TakeSnapshot has captured one up to 1: the older one replaces it, and what
is committed in between is in neither the snapshot nor the log. -/
theorem snapshot_goes_back : ∃ acts p acts' q,
    Runs.Run (loneStep Trio.peers Trio.a) (fun _ act => (noCrash act && gapless act) = true) fresh acts p ∧
    Runs.Run (loneStep Trio.peers Trio.a) (fun _ act => (noCrash act && gapless act) = true) p acts' q ∧
    p.node.snapshotLastIndex = 3 ∧ q.node.snapshotLastIndex = 1 ∧ q.snapshot = none ∧ q.node.snapshotEnd = 1 ∧
      q.node.commitIndex = 3 ∧ ∀ e ∈ q.node.log, e.index ≠ 2 := by
  obtain ⟨p, q, hr, hq, hp⟩ := Runs.exists_runs_of_exec (loneStep Trio.peers Trio.a)
    (fun _ act => (noCrash act && gapless act) = true) fresh
    (firstEntry ++ [.snapshot Trio.a [2], .deliver ⟨Trio.b, Trio.a, .installSnapshot ⟨1, Trio.b, 3, 1, [9]⟩⟩])
    [.snapshot Trio.a [2], .snapshot Trio.a [2]]
    (fun p q => p.node.snapshotLastIndex = 3 && (q.node.snapshotLastIndex = 1 && (q.snapshot = none &&
      (q.node.snapshotEnd = 1 && (q.node.commitIndex = 3 && q.node.log.all (·.index ≠ 2)))))) (by decide)
  simp only [Bool.and_eq_true, decide_eq_true_eq, List.all_eq_true] at hp
  exact ⟨_, p, _, q, hr, hq, hp⟩

end MiniStorage.Raft
