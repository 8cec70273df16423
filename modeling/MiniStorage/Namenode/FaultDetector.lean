import MiniStorage.Namenode.ConsistencyChecker
import MiniStorage.Namenode.RepairRounds
import MiniStorage.Runs

namespace MiniStorage.Namenode

open Datanode Runs MetadataStore

/-- What a round prints: the cluster, how many blocks need replicas and how many of them are repaired, the issues. -/
structure RoundReport where
  health : ClusterHealth
  underReplicated : Nat
  repaired : Int
  bad : List BlockCheckResult
deriving DecidableEq, Repr

/-- `world` is what the DataNodes store. -/
structure FaultDetector (N : Type*) where
  metadata : MetadataStore
  dnManager : DataNodeManager
  world : World N
  repairRounds : UInt64 := 0
  blocksRepaired : UInt64 := 0
  printed : List RoundReport := []

/-- What is around a round: the clock, the passes over the tables, the requests it makes and what comes of them. -/
structure Round where
  now : Int := 0
  uninit : Int := 0
  health : Iteration × Iteration := (.sorted, .sorted)
  scan : Iteration × Iteration := (.sorted, .sorted)
  targets : BlockId → Iteration := fun _ => .sorted
  trips : Trips
  check : BlockId → Iteration := fun _ => .sorted
  files : Iteration := .sorted
  probes : Probes

namespace FaultDetector

section

variable {N : Type*} [DecidableEq N] (crc32 : Bytes → UInt32) (peer : Bytes → Int → N)

/-- dead_node_cb_ is called nowhere. -/
def handleDeadNodes (d : FaultDetector N) (r : Round) : ClusterHealth × FaultDetector N :=
  let dn := d.dnManager.checkDataNodeHealth r.now
  (d.metadata.getClusterHealth dn r.health.1 r.health.2, { d with dnManager := dn })

/-- Returns nothing where an exception leaves it. -/
def repairReplicas (d : FaultDetector N) (r : Round) : Option ((Nat × Int) × FaultDetector N) :=
  let underReplicated := d.metadata.scanUnderReplicated d.dnManager r.uninit r.scan.1 r.scan.2
  if underReplicated.isEmpty then some ((0, 0), d)
  else
    match d.metadata.repairUnderReplicatedOn crc32 peer d.dnManager r.targets r.trips d.world 0 underReplicated with
    | none => none
    | some (repaired, m, w) =>
        some ((underReplicated.length, repaired),
          { d with metadata := m, world := w, blocksRepaired := d.blocksRepaired + .ofInt repaired })

def verifyConsistency (d : FaultDetector N) (r : Round) : Option (List BlockCheckResult) :=
  d.metadata.scanAllBlocks crc32 peer d.world r.probes d.dnManager r.check r.files

def runOnce (d : FaultDetector N) (r : Round) : Option (FaultDetector N) :=
  let (health, d) := d.handleDeadNodes r
  match d.repairReplicas crc32 peer r with
  | none => none
  | some ((underReplicated, repaired), d) =>
      match d.verifyConsistency crc32 peer r with
      | none => none
      | some bad =>
          some { d with
            repairRounds := d.repairRounds + 1
            printed := d.printed ++ [⟨health, underReplicated, repaired, bad⟩] }

/-- A round, or what others do between two of them: to the metadata, to the table of the DataNodes and, with requests,
to what these store. -/
inductive Event (N : Type*)
  | round (r : Round)
  | files (m : MetadataStore)
  | nodes (dn : DataNodeManager)
  | requests (reqs : List (N × DataNodeRequest × Around N))

def step (d : FaultDetector N) : Event N → Option (FaultDetector N)
  | .round r => d.runOnce crc32 peer r
  | .files m => some { d with metadata := m }
  | .nodes dn => some { d with dnManager := dn }
  | .requests reqs => some { d with world := (handleAll crc32 d.world reqs).2 }

end

variable {N : Type*} [DecidableEq N] {crc32 : Bytes → UInt32} {peer : Bytes → Int → N} {d d' : FaultDetector N}
  {r : Round}
  {e : Event N} {events : List (Event N)}

/-- The disks of the targets let the blocks through. -/
def Round.Lets (r : Round) : Prop := ∀ task, (r.trips task).2.disk.lets = true

/-- The copies that are tried with a table. -/
def tasks (d : FaultDetector N) (r : Round) : List ReplicationTask :=
  (d.metadata.scanUnderReplicated d.dnManager r.uninit r.scan.1 r.scan.2).flatMap (tasksOf d.dnManager r.targets)

theorem repairReplicas_eq {counts : Nat × Int} (h : d.repairReplicas crc32 peer r = some (counts, d')) :
    d'.world = carryAll crc32 peer r.trips d.world (d.tasks r) ∧
      RecordsFailures peer r.trips d.metadata d'.metadata (d.tasks r) ∧ d'.repairRounds = d.repairRounds ∧
      d'.printed = d.printed ∧
      (Round.Lets r → d'.metadata = d.metadata ∧ d'.blocksRepaired = d.blocksRepaired ∧ counts.2 = 0) := by
  rw [repairReplicas] at h
  rw [tasks]
  generalize d.metadata.scanUnderReplicated d.dnManager r.uninit r.scan.1 r.scan.2 = urbs at h ⊢
  split at h
  next hempty =>
    cases h
    rw [List.isEmpty_iff.mp hempty]
    exact ⟨rfl, .refl _ _, rfl, rfl, fun _ => ⟨rfl, rfl, rfl⟩⟩
  next =>
    split at h
    next => cases h
    next repaired m w hrepair =>
      cases h
      obtain ⟨hworld, hrecords, hcount, hsound⟩ := repairUnderReplicatedOn_eq hrepair
      refine ⟨hworld, hrecords, rfl, rfl, fun hlets => ?_⟩
      have hnone : (urbs.countP fun urb => Unstored d.dnManager r.targets r.trips urb) = 0 := by
        rw [List.countP_eq_zero]
        intro urb _ hun
        obtain ⟨hne, hall⟩ := of_decide_eq_true hun
        obtain ⟨task, htask⟩ := List.exists_mem_of_ne_nil _ hne
        exact absurd (hall task htask) (by rw [hlets task]; exact Bool.true_eq_false_eq_False)
      obtain rfl : repaired = 0 := by omega
      have hzero : UInt64.ofInt 0 = 0 := rfl
      exact ⟨hsound fun task _ => hlets task, by rw [hzero, UInt64.add_zero], rfl⟩

/-- One round. -/
theorem runOnce_eq (h : d.runOnce crc32 peer r = some d') :
    d'.world = carryAll crc32 peer r.trips d.world ((d.handleDeadNodes r).2.tasks r) ∧
      RecordsFailures peer r.trips d.metadata d'.metadata ((d.handleDeadNodes r).2.tasks r) ∧
      d'.repairRounds = d.repairRounds + 1 ∧
      ∃ report, d'.printed = d.printed ++ [report] ∧
        (Round.Lets r → d'.metadata = d.metadata ∧ d'.blocksRepaired = d.blocksRepaired ∧ report.repaired = 0) := by
  rw [runOnce] at h
  dsimp only at h
  split at h
  next => cases h
  next underReplicated repaired d₁ hrepair =>
    split at h
    next => cases h
    next bad hverify =>
      cases h
      obtain ⟨hworld, hrecords, hrounds, hprinted, hsound⟩ := repairReplicas_eq hrepair
      refine ⟨hworld, hrecords, by rw [hrounds]; rfl, _, by rw [hprinted]; rfl, fun hlets => ?_⟩
      exact hsound hlets

/-- A file with one block at the first of three DataNodes. -/
def threePorts : FaultDetector Int :=
  let nodes := ((DataNodeManager.registerDataNode {} { id := text "a:1", freeSpace := kBlockSize } 0).registerDataNode
    { id := text "a:2", freeSpace := kBlockSize } 0).registerDataNode { id := text "a:3", freeSpace := kBlockSize } 0
  { metadata :=
      { files := SortedMap.empty.insert (text "/f") { path := text "/f", blocks := [1] }
        blocks := SortedMap.empty.insert 1 { blockId := 1, size := 3, locations := [text "a:1"] } }
    dnManager := nodes
    world := { stores := Function.update (fun _ => {}) 1 (BlockStore.writeBlock (fun _ => 7) {} 1 [1, 2, 3] {}).2 } }

/-- Nothing can be opened on the disk of the third. -/
def stuckRound : Round where
  trips task := ({}, { disk := { tmpOpens := task.targetDn ≠ text "a:3" } })
  probes _ _ := ⟨{}, fun _ => some 0⟩

/-- What the requests between the rounds write. -/
def Written (events : List (Event N)) (id : BlockId) (data : Bytes) : Prop :=
  ∃ reqs, .requests reqs ∈ events ∧ ∃ q ∈ reqs, q.2.1.op = .writeBlock ∧ q.2.1.writeBlock.blockId = id ∧
    q.2.1.writeBlock.data = data

theorem drawn_serve (b : Blocks N) (node : N) (req : DataNodeRequest) :
    Holdings.Drawn (fun id data => req.op = .writeBlock ∧ req.writeBlock.blockId = id ∧ req.writeBlock.data = data) b
      (b.serve node req).2 := by
  rw [Blocks.serve]
  cases hop : req.op with
  | writeBlock => exact Holdings.drawn_set fun data hdata => .inr ⟨rfl, rfl, Option.some.inj hdata⟩
  | readBlock =>
      dsimp only
      split <;> exact .refl _ b
  | deleteBlock => exact Holdings.drawn_set fun data hdata => absurd hdata.symm (Option.some_ne_none data)
  | other n => exact .refl _ b

theorem drawn_serveAll (b : Blocks N) (reqs : List (N × DataNodeRequest × Around N)) :
    Holdings.Drawn (fun id data => ∃ q ∈ reqs, q.2.1.op = .writeBlock ∧ q.2.1.writeBlock.blockId = id ∧
      q.2.1.writeBlock.data = data) b (b.serveAll (reqs.map fun q => (q.1, q.2.1))).2 := by
  induction reqs generalizing b with
  | nil => exact .refl _ b
  | cons q reqs ih =>
      refine Holdings.Drawn.trans ((drawn_serve b q.1 q.2.1).mono ?_) ((ih (b.serve q.1 q.2.1).2).mono ?_)
      · exact fun id data hq => ⟨q, List.mem_cons_self, hq⟩
      · exact fun id data ⟨q', hq', hrest⟩ => ⟨q', List.mem_cons_of_mem _ hq', hrest⟩

/-- Over all rounds, and the requests between them, every DataNode holds bytes that some DataNode held before or that
were written. Where nobody else writes, and the replicas of each block agree, no replica is lost and they go on
agreeing. -/
theorem rounds_keep_replicas {b : Blocks N} (h : Run (step crc32 peer) (fun _ _ => True) d events d')
    (hmirrors : ∀ n, Mirrors crc32 (b n) (d.world.stores n))
    (hdisks : ∀ r, .round r ∈ events → ∀ task, (r.trips task).2.disk.Sound)
    (hreqs : ∀ reqs, .requests reqs ∈ events → ∀ q ∈ reqs, Serviceable q.2.2 q.2.1) :
    ∃ b' : Blocks N, (∀ n, Mirrors crc32 (b' n) (d'.world.stores n)) ∧ Holdings.Drawn (Written events) b b' ∧
      ((∀ reqs, .requests reqs ∉ events) → Holdings.Agree b → Holdings.Kept b b' ∧ Holdings.Agree b') := by
  induction h with
  | nil => exact ⟨b, hmirrors, .refl _ b, fun _ hagree => ⟨fun _ _ _ hx => hx, hagree⟩⟩
  | @snoc events d₁ d₂ e _ _ hstep ih =>
      have hbefore {e' : Event N} (he : e' ∈ events) : e' ∈ events ++ [e] := List.mem_append_left _ he
      have hlast : e ∈ events ++ [e] := List.mem_append_right _ List.mem_cons_self
      obtain ⟨b₁, hmirrors₁, hdrawn, hkept⟩ :=
        ih (fun r hr => hdisks r (hbefore hr)) fun reqs hr => hreqs reqs (hbefore hr)
      have hdrawn₁ : Holdings.Drawn (Written (events ++ [e])) b b₁ :=
        hdrawn.mono fun id data ⟨reqs, hr, hrest⟩ => ⟨reqs, hbefore hr, hrest⟩
      cases e with
      | round r =>
          obtain ⟨hworld, -⟩ := runOnce_eq hstep
          let made := (d₁.handleDeadNodes r).2.tasks r
          have hcopies : Relation.ReflTransGen Holdings.Copy b₁ (made.foldl (copy peer r.trips) b₁) :=
            copies_foldl b₁ made
          refine ⟨made.foldl (copy peer r.trips) b₁, ?_, ?_, fun hnone hagree => ?_⟩
          · rw [hworld]
            exact mirrors_carryAll hmirrors₁ (hdisks r hlast)
          · exact hdrawn₁.trans (Holdings.drawn_of_copies hcopies)
          · obtain ⟨hkept₁, hagree₁⟩ := hkept (fun reqs hr => hnone reqs (hbefore hr)) hagree
            obtain ⟨hkept₂, hagree₂⟩ := Holdings.kept_of_copies hagree₁ hcopies
            exact ⟨fun node id x hx => hkept₂ node id x (hkept₁ node id x hx), hagree₂⟩
      | files m =>
          obtain rfl := Option.some.inj hstep
          exact ⟨b₁, hmirrors₁, hdrawn₁, fun hnone hagree => hkept (fun reqs hr => hnone reqs (hbefore hr)) hagree⟩
      | nodes dn =>
          obtain rfl := Option.some.inj hstep
          exact ⟨b₁, hmirrors₁, hdrawn₁, fun hnone hagree => hkept (fun reqs hr => hnone reqs (hbefore hr)) hagree⟩
      | requests reqs =>
          obtain rfl := Option.some.inj hstep
          refine ⟨(b₁.serveAll (reqs.map fun q => (q.1, q.2.1))).2, ?_, ?_, fun hnone => absurd hlast (hnone reqs)⟩
          · exact (handleAll_serveAll hmirrors₁ (hreqs reqs hlast)).2
          · exact hdrawn₁.trans ((drawn_serveAll b₁ reqs).mono fun id data hq => ⟨reqs, hlast, hq⟩)

/-- All disks are sound. -/
def soundRound : Round := { stuckRound with trips := fun _ => ({}, {}) }

theorem rounds_keep_replicas_three :
    let b : Blocks Int := Holdings.set (fun _ _ => none) 1 1 (some [1, 2, 3])
    let events : List (Event Int) := [.round soundRound, .nodes {}, .round soundRound]
    ∃ d' b', Run (step (fun _ => 7) fun _ port => port) (fun _ _ => True) threePorts events d' ∧
      (∀ n, Mirrors (fun _ => 7) (b' n) (d'.world.stores n)) ∧ Holdings.Kept b b' ∧ Holdings.Agree b' := by
  intro b events
  obtain ⟨d', hrun, -⟩ := exists_run_of_exec (step (fun _ => 7) fun _ port => port) (fun _ _ => True) threePorts events
    (fun _ => true) (by decide)
  have hsound : ({} : Disk).Sound := ⟨rfl, rfl, rfl, by decide⟩
  have hmirrors : ∀ n, Mirrors (fun _ => 7) (b n) (threePorts.world.stores n) :=
    @forall_mirrors_update (fun _ => 7) 1 Int _ 1 { stores := fun _ => {} } (fun _ _ => none)
      (fun _ => Mirrors.empty _) _ _
      ((Mirrors.empty _).write hsound (by decide) 1)
  have hagree : Holdings.Agree b := by
    intro n n' id x x' hx hx'
    simp only [b, Holdings.set_apply, Option.ite_none_right_eq_some, Option.some.injEq] at hx hx'
    exact hx.2.symm.trans hx'.2
  have hdisks : ∀ r, .round r ∈ events → ∀ task, (r.trips task).2.disk.Sound := by
    intro r hr task
    have hround : r = soundRound := by simpa [events] using hr
    rw [hround]
    exact hsound
  have hnone : ∀ reqs, .requests reqs ∉ events := by
    intro reqs hr
    simp [events] at hr
  obtain ⟨b', hmirrors', -, hkept⟩ := rounds_keep_replicas hrun hmirrors hdisks fun reqs hr => absurd hr (hnone reqs)
  exact ⟨d', b', hrun, hmirrors', hkept hnone hagree⟩

end FaultDetector

end MiniStorage.Namenode
