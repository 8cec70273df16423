import MiniStorage.Namenode.Replicas
import MiniStorage.Raft.Safety

namespace MiniStorage.Raft

open Replication

variable {peers : List Bytes} {a : Ghost} {c c' : Cluster} {id v u : Bytes} {p p' : Process} {net net' : List Packet}
  {act : Action} {L M : List LogEntry} {j k : Nat}

theorem trace_isPrefix (hjk : j ≤ k) (h : ∀ m < j, L[m]? = M[m]?) : trace L j <+: trace M k := by
  have hsame : trace L j = trace M j := by
    refine List.map_congr_left fun i hi => ?_
    obtain ⟨h1, h2⟩ := List.mem_range'_1.mp hi
    rw [h (i - 1) (by omega)]
  rw [hsame, trace, trace]
  refine ⟨(List.range' (1 + j) (k - j)).map fun i => .applied i M[i - 1]?, ?_⟩
  rw [← List.map_append, List.range'_append_1, Nat.add_sub_cancel' hjk]

/-- Of two nodes, one has applied what the other has, and maybe more. -/
theorem Sound.upper_total (h : Sound peers a c) (v u : Bytes) :
    (c.node v).upper <+: (c.node u).upper ∨ (c.node u).upper <+: (c.node v).upper := by
  have hv := h.accounts v
  have hu := h.accounts u
  rw [Cluster.node, Cluster.node, hv.upper, hu.upper]
  rcases Nat.le_total (c.procs v).node.commitIndex (c.procs u).node.commitIndex with hle | hle
  · refine .inl (trace_isPrefix hle fun m hm => ?_)
    exact hv.settled.agree (fun _ _ => Majority.inter) h.mirror.inv hu.settled hm (hm.trans_le hle)
  · refine .inr (trace_isPrefix hle fun m hm => ?_)
    exact hu.settled.agree (fun _ _ => Majority.inter) h.mirror.inv hv.settled hm (hm.trans_le hle)

theorem ProcStep.upper_isPrefix (hp : ProcStep peers id p net act p' net') (hcrash : noCrash act = true)
    (hn : NoInstall net) : p.node.upper <+: p'.node.upper := by
  cases hp.commitChange with
  | same hcommit happlied hupper => rw [hupper]
  | commit k hk =>
      rw [hk.upper]
      exact List.prefix_append _ _
  | install src req hmem => exact absurd rfl (hn _ hmem req)
  | restart | crashHandling => cases hcrash

theorem upper_isPrefix_of_step (hn : NoInstall c.net) (hact : followsProtocol c act = true)
    (hs : step peers c act = some c') (v : Bytes) : (c.node v).upper <+: (c'.node v).upper := by
  obtain ⟨id, p', net', rfl, hp⟩ := step_cases hs
  have hcrash : noCrash act = true := by
    simp only [followsProtocol, Bool.and_eq_true] at hact
    exact hact.1.1.1.1.1
  exact put_cases (P := fun w p => (c.node w).upper <+: p.node.upper) c net' (hp.upper_isPrefix hcrash hn)
    (fun w _ => List.prefix_refl _) v

end MiniStorage.Raft

namespace MiniStorage.Namenode

open Raft Runs

/-- HANameNodeServers: their Raft nodes, and what each has besides. -/
structure HaCluster where
  raft : Cluster
  cores : Bytes → NameNode

inductive HaAction
  /-- A step of a Raft node, which runs OnApplyCommitted for what it applies; `ts i` is the moment for the entry at
  `i`. -/
  | raft (act : Action) (ts : Nat → Moment)
  | locally (id : Bytes) (e : LocalEvent)

namespace HaCluster

/-- The commands a server has applied. -/
def commands (c : Cluster) (id : Bytes) : List Bytes := (applyCalls (c.node id).upper).map Prod.snd

section

variable (w : Wire NameNodeRequest) (peers : List Bytes)

def start : HaCluster := ⟨Raft.start, fun _ => {}⟩

/-- apply_cb_ for what a Raft node has applied in a step. -/
def catchUp (n : NameNode) (before after : RaftNode) (ts : Nat → Moment) : NameNode :=
  (applyCalls (after.upper.drop before.upper.length)).foldl
    (fun n call => (n.onApplyCommitted w call.2 (ts call.1)).2) n

def step (s : HaCluster) : HaAction → Option HaCluster
  | .raft act ts => (Raft.step peers s.raft act).map fun c =>
      ⟨c, fun id => catchUp w (s.cores id) (s.raft.node id) (c.node id) ts⟩
  | .locally id e => some { s with cores := Function.update s.cores id ((s.cores id).locally e) }

/-- The Raft nodes do what the protocol asks for. -/
def follows (s : HaCluster) : HaAction → Bool
  | .raft act _ => followsProtocol s.raft act
  | .locally _ _ => true

end

end HaCluster

/-! What the servers are for: a set of paths that commands change. -/

namespace NameNode

def paths (n : NameNode) : Set FilePath := {p | n.metadata.files.find p ≠ none}

/-- What a command does to the paths. -/
def effect (w : Wire NameNodeRequest) (paths : Set FilePath) (command : Bytes) : Set FilePath :=
  match w.parse command with
  | none => paths
  | some req =>
      match req.op with
      | .createFile => insert (req.createFile.getD {}).path paths
      | .deleteFile => paths \ {(req.deleteFile.getD {}).path}
      | _ => paths

variable {w : Wire NameNodeRequest} {n : NameNode}

theorem paths_locally (n : NameNode) (e : LocalEvent) : (n.locally e).paths = n.paths := by
  rw [paths, files_locally, paths]

theorem mem_paths {p : FilePath} : p ∈ n.paths ↔ n.metadata.files.find p ≠ none := Iff.rfl

theorem paths_applyCreateFile (n : NameNode) (req : CreateFileRequest) (t : Moment) :
    (n.applyCreateFile req t).paths = insert req.path n.paths := by
  ext p
  rw [Set.mem_insert_iff, mem_paths, mem_paths, applyCreateFile, MetadataStore.find_createFile]
  by_cases hp : p = req.path
  · subst hp
    cases n.metadata.files.find req.path with
    | none => simp
    | some f => simp
  · simp [hp]

theorem paths_applyDeleteFile (n : NameNode) (req : DeleteFileRequest) :
    (n.applyDeleteFile req).paths = n.paths \ {req.path} := by
  ext p
  rw [Set.mem_sdiff, Set.mem_singleton_iff, mem_paths, mem_paths, applyDeleteFile, MetadataStore.getFile]
  cases hf : n.metadata.files.find req.path with
  | none =>
      refine ⟨fun h => ⟨h, ?_⟩, And.left⟩
      rintro rfl
      exact h hf
  | some f =>
      simp only [files_removeFile]
      by_cases hp : p = req.path <;> simp [hp]

theorem paths_applyAllocateBlock (n : NameNode) (req : AllocateBlockRequest) (t : Moment) :
    (n.applyAllocateBlock req t).2.paths = n.paths := by
  cases hf : n.metadata.files.find req.filePath with
  | none => rw [applyAllocateBlock_none (.inl hf)]
  | some f =>
      cases hb : n.chosenBlock t with
      | none => rw [applyAllocateBlock_none (.inr hb)]
      | some chosen =>
          rw [applyAllocateBlock_some hf hb]
          ext p
          rw [mem_paths, mem_paths, files_commitBlock]
          by_cases hp : p = req.filePath
          · simp [hp, hf]
          · simp [hp]

theorem paths_onApplyCommitted (n : NameNode) (command : Bytes) (t : Moment) :
    (n.onApplyCommitted w command t).2.paths = effect w n.paths command := by
  rw [onApplyCommitted, effect]
  cases w.parse command with
  | none => rfl
  | some req =>
      simp only [apply]
      cases hop : req.op with
      | createFile => exact n.paths_applyCreateFile _ t
      | deleteFile => exact n.paths_applyDeleteFile _
      | allocateBlock => exact n.paths_applyAllocateBlock _ t
      | getFileBlocks | listFiles | registerDn | heartbeat | blockReport | unknown => rfl

end NameNode

namespace HaCluster

variable {w : Wire NameNodeRequest} {peers : List Bytes} {s s' : HaCluster} {acts acts' : List HaAction} {e : HaAction}
  {c c' : Cluster} {v u : Bytes}

theorem isPrefix_commands (h : (c.node v).upper <+: (c'.node u).upper) : commands c v <+: commands c' u :=
  (h.filterMap _).map Prod.snd

theorem paths_catchUp (n : NameNode) (before after : RaftNode) (ts : Nat → Moment) :
    (catchUp w n before after ts).paths =
      ((applyCalls (after.upper.drop before.upper.length)).map Prod.snd).foldl (NameNode.effect w) n.paths := by
  rw [catchUp]
  generalize applyCalls (after.upper.drop before.upper.length) = calls
  induction calls generalizing n with
  | nil => rfl
  | cons call calls ih =>
      rw [List.foldl_cons, ih, NameNode.paths_onApplyCommitted]
      rfl

/-- The commands of the step are those beyond what was applied before it. -/
theorem commands_append (h : (c.node v).upper <+: (c'.node v).upper) :
    commands c' v = commands c v ++ (applyCalls ((c'.node v).upper.drop (c.node v).upper.length)).map Prod.snd := by
  obtain ⟨new, hnew⟩ := h
  rw [commands, commands, ← hnew, List.drop_left, applyCalls, List.filterMap_append, List.map_append]
  rfl

/-- The paths of each server are those that its commands leave. -/
def Applied (w : Wire NameNodeRequest) (s : HaCluster) : Prop :=
  ∀ v, (s.cores v).paths = (commands s.raft v).foldl (NameNode.effect w) ∅

/-- A step of the cluster: the Raft nodes do it too, or are left alone. -/
theorem step_raft (hs : step w peers s e = some s') :
    (∃ act ts, e = .raft act ts ∧ Raft.step peers s.raft act = some s'.raft ∧
        s'.cores = fun id => catchUp w (s.cores id) (s.raft.node id) (s'.raft.node id) ts) ∨
      ∃ id ev, e = .locally id ev ∧ s' = { s with cores := Function.update s.cores id ((s.cores id).locally ev) } := by
  cases e with
  | raft act ts =>
      obtain ⟨c, hc, rfl⟩ := Option.map_eq_some_iff.mp hs
      exact .inl ⟨act, ts, rfl, hc, rfl⟩
  | locally id ev => exact .inr ⟨id, ev, rfl, (Option.some.inj hs).symm⟩

theorem run_raft (h : Run (step w peers) (fun s e => follows s e = true) s acts s') :
    ∃ racts, Run (Raft.step peers) (fun c act => followsProtocol c act = true) s.raft racts s'.raft := by
  induction h with
  | nil => exact ⟨[], .nil⟩
  | snoc _ hg hs ih =>
      obtain ⟨racts, hr⟩ := ih
      rcases step_raft hs with ⟨act, ts, rfl, hstep, -⟩ | ⟨id, ev, rfl, rfl⟩
      · exact ⟨racts ++ [act], hr.snoc hg hstep⟩
      · exact ⟨racts, hr⟩

theorem step_applied (hn : NoInstall s.raft.net) (h : Applied w s) (hg : follows s e = true)
    (hs : step w peers s e = some s') :
    Applied w s' ∧ ∀ v, (s.raft.node v).upper <+: (s'.raft.node v).upper := by
  rcases step_raft hs with ⟨act, ts, rfl, hstep, hcores⟩ | ⟨id, ev, rfl, rfl⟩
  · have hgrow := upper_isPrefix_of_step hn hg hstep
    refine ⟨fun v => ?_, hgrow⟩
    rw [hcores, paths_catchUp, h v, commands_append (hgrow v), List.foldl_append]
  · refine ⟨fun v => ?_, fun v => List.prefix_refl _⟩
    rw [← h v]
    by_cases hv : v = id
    · subst hv
      simp only [Function.update_self, NameNode.paths_locally]
    · simp only [Function.update_of_ne hv]

theorem sound_of_run (hnd : peers.Nodup) (hnil : [] ∉ peers)
    (h : Run (step w peers) (fun s e => follows s e = true) start acts s) : ∃ a, Sound peers a s.raft := by
  obtain ⟨racts, hr⟩ := run_raft h
  exact run_followsProtocol hnd hnil hr

theorem applied_of_run (hnd : peers.Nodup) (hnil : [] ∉ peers)
    (h : Run (step w peers) (fun s e => follows s e = true) start acts s) : Applied w s := by
  induction h with
  | nil =>
      intro v
      ext p
      exact iff_of_false (fun hp => hp rfl) (Set.notMem_empty p)
  | snoc hrun hg hs ih =>
      obtain ⟨a, ha⟩ := sound_of_run hnd hnil hrun
      exact (step_applied ha.mirror.no_install ih hg hs).1

/-- No server takes back what it has applied. -/
theorem upper_of_run (hnd : peers.Nodup) (hnil : [] ∉ peers)
    (h : Run (step w peers) (fun s e => follows s e = true) start acts s)
    (h' : Run (step w peers) (fun s e => follows s e = true) s acts' s') (v : Bytes) :
    (s.raft.node v).upper <+: (s'.raft.node v).upper := by
  induction h' with
  | nil => exact List.prefix_refl _
  | snoc hrun hg hs ih =>
      obtain ⟨a, ha⟩ := sound_of_run hnd hnil (h.append hrun)
      exact ih.trans ((step_applied ha.mirror.no_install (applied_of_run hnd hnil (h.append hrun)) hg hs).2 v)

/-- At any two moments of a run and at any two servers: where one has applied no more commands than the other, its
commands are the first of the other's, and its paths are exactly those that these leave. -/
theorem namespaces_agree (hnd : peers.Nodup) (hnil : [] ∉ peers)
    (h : Run (step w peers) (fun s e => follows s e = true) start acts s)
    (h' : Run (step w peers) (fun s e => follows s e = true) s acts' s') (v u : Bytes) :
    ((commands s.raft v).length ≤ (commands s'.raft u).length → commands s.raft v <+: commands s'.raft u ∧
        (s.cores v).paths = ((commands s'.raft u).take (commands s.raft v).length).foldl (NameNode.effect w) ∅) ∧
      ((commands s'.raft u).length ≤ (commands s.raft v).length → commands s'.raft u <+: commands s.raft v ∧
        (s'.cores u).paths = ((commands s.raft v).take (commands s'.raft u).length).foldl (NameNode.effect w) ∅) := by
  have hv : commands s.raft v <+: commands s'.raft v := isPrefix_commands (upper_of_run hnd hnil h h' v)
  have htotal : commands s.raft v <+: commands s'.raft u ∨ commands s'.raft u <+: commands s.raft v := by
    obtain ⟨a, ha⟩ := sound_of_run hnd hnil (h.append h')
    rcases ha.upper_total v u with hle | hle
    · exact .inl (hv.trans (isPrefix_commands hle))
    · exact List.prefix_or_prefix_of_prefix hv (isPrefix_commands hle)
  constructor
  · intro hle
    have hpre : commands s.raft v <+: commands s'.raft u :=
      htotal.elim id fun hrev => (hrev.eq_of_length_le hle) ▸ List.prefix_refl _
    refine ⟨hpre, ?_⟩
    rw [← List.prefix_iff_eq_take.mp hpre]
    exact applied_of_run hnd hnil h v
  · intro hle
    have hpre : commands s'.raft u <+: commands s.raft v :=
      htotal.elim (fun hrev => (hrev.eq_of_length_le hle) ▸ List.prefix_refl _) id
    refine ⟨hpre, ?_⟩
    rw [← List.prefix_iff_eq_take.mp hpre]
    exact applied_of_run hnd hnil (h.append h') u

def createCommand : Bytes := [0x52, 0x04, 0x0a, 0x02, 0x2f, 0x61]

/-- The leader creates a file with the vote of one follower. -/
def createTrio : List HaAction :=
  (Trio.election Trio.a Trio.b 1 0 0 ++ [Action.propose Trio.a createCommand] ++ Trio.heartbeats Trio.a ++
    Trio.exchange Trio.a Trio.b ⟨1, Trio.a, 0, 0, [⟨1, 1, createCommand⟩], 0⟩ 1).map (.raft · fun _ => ⟨1, .sorted⟩)

/-- The follower learns of it with the next heartbeat, after a DataNode has registered with it. -/
def followTrio : List HaAction :=
  .locally Trio.b (.registerDn { datanodeId := text "d" } ⟨2, .sorted⟩) ::
    (Trio.heartbeats Trio.a ++ [Action.deliver ⟨Trio.a, Trio.b, .appendEntries ⟨1, Trio.a, 1, 1, [], 1⟩⟩]).map
      (.raft · fun _ => ⟨3, .sorted⟩)

theorem namespaces_agree_trio : ∃ s s',
    Run (step requestWire Trio.peers) (fun s e => follows s e = true) start createTrio s ∧
      Run (step requestWire Trio.peers) (fun s e => follows s e = true) s followTrio s' ∧
      commands s.raft Trio.a = [createCommand] ∧
      (s'.cores Trio.b).paths = [createCommand].foldl (NameNode.effect requestWire) ∅ := by
  obtain ⟨s, s', h, h', hp⟩ := exists_runs_of_exec (step requestWire Trio.peers) (fun s e => follows s e = true) start
    createTrio followTrio (fun s s' => commands s.raft Trio.a = [createCommand] ∧
      commands s'.raft Trio.b = [createCommand]) (by decide)
  obtain ⟨ha, hb⟩ := of_decide_eq_true hp
  have hagree := (namespaces_agree (by decide) (by decide) h h' Trio.a Trio.b).2 (by rw [ha, hb])
  rw [ha, hb] at hagree
  exact ⟨s, s', h, h', ha, hagree.2⟩

end HaCluster

end MiniStorage.Namenode
