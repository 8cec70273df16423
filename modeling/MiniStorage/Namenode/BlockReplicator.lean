import MiniStorage.Namenode.BlockTable
import MiniStorage.Namenode.ReplicationMonitor

namespace MiniStorage.Namenode

namespace DataNodeManager

def selectTargetNodes (dn : DataNodeManager) (it : Iteration) (urb : UnderReplicatedBlock) (needCount : Int) :
    List DataNodeId :=
  let excluded := urb.existingLocations ++ urb.deadLocations
  let candidates := ((dn.getAliveDataNodes it).filter fun info =>
    info.id ∉ excluded ∧ info.freeSpace ≥ kBlockSize).map DataNodeInfo.id
  candidates.take (min (candidates.length : Int) needCount).toNat

/-- The DataNodes a block at those locations may be copied to. -/
def eligible (dn : DataNodeManager) (it : Iteration) (locations : List DataNodeId) : List DataNodeInfo :=
  (dn.getAliveDataNodes it).filter fun info => info.id ∉ locations ∧ info.freeSpace ≥ kBlockSize

end DataNodeManager

namespace MetadataStore

def getBlockLocations (m : MetadataStore) (blockId : BlockId) : List DataNodeId :=
  ((m.blocks.find blockId).map BlockInfo.locations).getD []

/-- What becomes of each transfer of a round: how FetchBlock and PushBlock go. -/
abbrev Transfers := ReplicationTask → Bool × Bool

variable (dn : DataNodeManager) (its : BlockId → Iteration) (transfers : Transfers)

/-- One turn of the loop of RepairUnderReplicated over the number of repaired blocks and the tables. -/
def repairBlock (acc : Int × MetadataStore) (urb : UnderReplicatedBlock) : Int × MetadataStore :=
  match urb.existingLocations with
  | [] => acc
  | source :: _ =>
      let needCount := urb.targetReplicas - urb.currentReplicas
      if needCount ≤ 0 then acc
      else
        let targets := dn.selectTargetNodes (its urb.blockId) urb needCount
        if targets.isEmpty then acc
        else
          let (blockOk, m) := targets.foldl (fun (blockOk, m) dnId =>
            let task : ReplicationTask := ⟨urb.blockId, source, dnId⟩
            let (result, m) := m.replicate task (transfers task).1 (transfers task).2
            (blockOk && result.success, m)) (true, acc.2)
          (if blockOk then acc.1 + 1 else acc.1, m)

def repairUnderReplicated (m : MetadataStore) (underReplicated : List UnderReplicatedBlock) : Int × MetadataStore :=
  underReplicated.foldl (repairBlock dn its transfers) (0, m)

/-- The tasks of one block. -/
def tasksOf (urb : UnderReplicatedBlock) : List ReplicationTask :=
  match urb.existingLocations with
  | [] => []
  | source :: _ =>
      (dn.selectTargetNodes (its urb.blockId) urb (urb.targetReplicas - urb.currentReplicas)).map
        fun dnId => ⟨urb.blockId, source, dnId⟩

/-- Calls of Replicate one after the other. -/
def transferAll (m : MetadataStore) (tasks : List ReplicationTask) : MetadataStore :=
  tasks.foldl (fun m task => (m.replicate task (transfers task).1 (transfers task).2).2) m

/-- The DataNodes a block gets through some tasks. -/
def gained (b : BlockId) (tasks : List ReplicationTask) : List DataNodeId :=
  (tasks.filter fun task => task.blockId = b ∧ transfers task = (true, true)).map ReplicationTask.targetDn

variable {dn its transfers} {m : MetadataStore} {b : BlockId} {urb : UnderReplicatedBlock} {tasks : List ReplicationTask}

theorem selectTargetNodes_nil {it : Iteration} {needCount : Int} (h : needCount ≤ 0) :
    dn.selectTargetNodes it urb needCount = [] := by
  rw [DataNodeManager.selectTargetNodes, Int.toNat_of_nonpos (Int.le_trans (Int.min_le_right _ _) h), List.take_zero]

/-- The turn of a block makes its transfers and no others. -/
theorem repairBlock_snd (acc : Int × MetadataStore) :
    (repairBlock dn its transfers acc urb).2 = transferAll transfers acc.2 (tasksOf dn its urb) := by
  have hloop : ∀ (source : DataNodeId) (targets : List DataNodeId) (ok : Bool) (m : MetadataStore),
      (targets.foldl (fun (blockOk, m) dnId =>
        let task : ReplicationTask := ⟨urb.blockId, source, dnId⟩
        let (result, m) := m.replicate task (transfers task).1 (transfers task).2
        (blockOk && result.success, m)) (ok, m)).2 =
      transferAll transfers m (targets.map fun dnId => ⟨urb.blockId, source, dnId⟩) := by
    intro source targets
    induction targets with
    | nil => exact fun _ _ => rfl
    | cons dnId targets ih => exact fun ok m => ih _ _
  rw [repairBlock, tasksOf]
  cases urb.existingLocations with
  | nil => rfl
  | cons source others =>
      simp only
      by_cases hneed : urb.targetReplicas - urb.currentReplicas ≤ 0
      · rw [if_pos hneed, selectTargetNodes_nil hneed]
        rfl
      · rw [if_neg hneed]
        by_cases hnone : (dn.selectTargetNodes (its urb.blockId) urb (urb.targetReplicas - urb.currentReplicas)).isEmpty
        · rw [if_pos hnone, List.isEmpty_iff.mp hnone]
          rfl
        · rw [if_neg hnone]
          exact hloop source _ true acc.2

theorem repairUnderReplicated_snd (m : MetadataStore) (urbs : List UnderReplicatedBlock) :
    (repairUnderReplicated dn its transfers m urbs).2 = transferAll transfers m (urbs.flatMap (tasksOf dn its)) := by
  have hloop : ∀ (urbs : List UnderReplicatedBlock) (acc : Int × MetadataStore),
      (urbs.foldl (repairBlock dn its transfers) acc).2 = transferAll transfers acc.2 (urbs.flatMap (tasksOf dn its)) := by
    intro urbs
    induction urbs with
    | nil => exact fun _ => rfl
    | cons urb urbs ih =>
        intro acc
        rw [List.foldl_cons, ih, repairBlock_snd, List.flatMap_cons, transferAll, transferAll, transferAll,
          List.foldl_append]
  exact hloop urbs (0, m)

theorem getBlockLocations_updateBlockLocation (m : MetadataStore) (blockId b : BlockId) (dnId : DataNodeId) :
    (m.updateBlockLocation blockId dnId).getBlockLocations b =
      if b = blockId then
        if dnId ∈ m.getBlockLocations b then m.getBlockLocations b else m.getBlockLocations b ++ [dnId]
      else m.getBlockLocations b := by
  rw [getBlockLocations, updateBlockLocation, SortedMap.find_insert]
  by_cases hb : b = blockId
  · subst hb
    rw [if_pos rfl, if_pos rfl, getBlockLocations]
    cases m.blocks.find b with
    | none => simp
    | some block =>
        simp only [Option.getD_some, Option.map_some]
        split <;> rfl
  · rw [if_neg hb, if_neg hb, getBlockLocations]

theorem subset_updateBlockLocation (m : MetadataStore) (blockId b : BlockId) (dnId : DataNodeId) :
    m.getBlockLocations b ⊆ (m.updateBlockLocation blockId dnId).getBlockLocations b := by
  intro d hd
  rw [getBlockLocations_updateBlockLocation]
  split
  · split
    next => exact hd
    next => exact List.mem_append_left _ hd
  · exact hd

theorem mem_updateBlockLocation (m : MetadataStore) (blockId : BlockId) (dnId : DataNodeId) :
    dnId ∈ (m.updateBlockLocation blockId dnId).getBlockLocations blockId := by
  rw [getBlockLocations_updateBlockLocation, if_pos rfl]
  split
  next hin => exact hin
  next => exact List.mem_append_right _ List.mem_cons_self

theorem nodup_updateBlockLocation {m : MetadataStore} {b : BlockId} (h : (m.getBlockLocations b).Nodup)
    (blockId : BlockId) (dnId : DataNodeId) : ((m.updateBlockLocation blockId dnId).getBlockLocations b).Nodup := by
  rw [getBlockLocations_updateBlockLocation]
  split
  · split
    next => exact h
    next hnew => exact List.nodup_append'.mpr ⟨h, List.nodup_singleton _, by simpa using hnew⟩
  · exact h

theorem replicate_snd (m : MetadataStore) (task : ReplicationTask) (fetched pushed : Bool) :
    (m.replicate task fetched pushed).2 =
      if (fetched, pushed) = (true, true) then m.updateBlockLocation task.blockId task.targetDn else m := by
  cases fetched <;> cases pushed <;> rfl

theorem gained_cons (task : ReplicationTask) (tasks : List ReplicationTask) :
    gained transfers b (task :: tasks) =
      (if task.blockId = b ∧ transfers task = (true, true) then [task.targetDn] else []) ++ gained transfers b tasks := by
  rw [gained, List.filter_cons]
  by_cases h : task.blockId = b ∧ transfers task = (true, true)
  · simp [h, gained]
  · simp [h, gained]

/-- New locations come behind the old ones. -/
theorem getBlockLocations_transferAll (h : (m.getBlockLocations b ++ gained transfers b tasks).Nodup) :
    (transferAll transfers m tasks).getBlockLocations b = m.getBlockLocations b ++ gained transfers b tasks := by
  induction tasks generalizing m with
  | nil => exact (List.append_nil _).symm
  | cons task tasks ih =>
      rw [gained_cons] at h ⊢
      have hstep : (m.replicate task (transfers task).1 (transfers task).2).2.getBlockLocations b =
          m.getBlockLocations b ++ if task.blockId = b ∧ transfers task = (true, true) then [task.targetDn] else [] := by
        rw [replicate_snd, Prod.mk.eta]
        by_cases hok : transfers task = (true, true)
        · rw [if_pos hok, getBlockLocations_updateBlockLocation]
          by_cases hb : task.blockId = b
          · have hnew : task.targetDn ∉ m.getBlockLocations b := by
              intro hmem
              rw [if_pos ⟨hb, hok⟩] at h
              exact List.disjoint_of_nodup_append h hmem (List.mem_append_left _ List.mem_cons_self)
            rw [if_pos hb.symm, if_neg hnew, if_pos ⟨hb, hok⟩]
          · rw [if_neg (fun he => hb he.symm), if_neg (fun he => hb he.1), List.append_nil]
        · rw [if_neg hok, if_neg (fun he => hok he.2), List.append_nil]
      rw [← List.append_assoc, ← hstep] at h ⊢
      exact ih h

/-- Tasks for other blocks leave an entry alone. -/
theorem find_transferAll (h : ∀ task ∈ tasks, task.blockId ≠ b) :
    (transferAll transfers m tasks).blocks.find b = m.blocks.find b := by
  induction tasks generalizing m with
  | nil => rfl
  | cons task tasks ih =>
      have hstep : (m.replicate task (transfers task).1 (transfers task).2).2.blocks.find b = m.blocks.find b := by
        rw [replicate_snd]
        split
        · obtain ⟨locations, hfind⟩ := m.find_updateBlockLocation task.blockId b task.targetDn
          rw [hfind, if_neg (h task List.mem_cons_self).symm]
        · rfl
      rw [← hstep]
      exact ih fun task' hmem => h task' (List.mem_cons_of_mem _ hmem)

theorem mem_tasksOf {task : ReplicationTask} (h : task ∈ tasksOf dn its urb) :
    task.blockId = urb.blockId ∧ urb.existingLocations ≠ [] := by
  rw [tasksOf] at h
  cases hex : urb.existingLocations with
  | nil => simp [hex] at h
  | cons source others =>
      simp only [hex, List.mem_map] at h
      obtain ⟨dnId, -, rfl⟩ := h
      exact ⟨rfl, List.cons_ne_nil _ _⟩

theorem filter_tasksOf_other (h : urb.blockId ≠ b) :
    (tasksOf dn its urb).filter (fun task => task.blockId = b) = [] := by
  rw [List.filter_eq_nil_iff]
  intro task hmem
  rw [(mem_tasksOf hmem).1]
  simpa using h

/-- The tasks for a block of a round are those of its one element. -/
theorem filter_flatMap_tasksOf {urbs : List UnderReplicatedBlock}
    (hnodup : (urbs.map UnderReplicatedBlock.blockId).Nodup) (hurb : urb ∈ urbs) :
    (urbs.flatMap (tasksOf dn its)).filter (fun task => task.blockId = urb.blockId) = tasksOf dn its urb := by
  induction urbs with
  | nil => cases hurb
  | cons first urbs ih =>
      rw [List.map_cons, List.nodup_cons] at hnodup
      rw [List.flatMap_cons, List.filter_append]
      rcases List.mem_cons.mp hurb with rfl | hrest
      · have hothers : (urbs.flatMap (tasksOf dn its)).filter (fun task => task.blockId = urb.blockId) = [] := by
          rw [List.filter_flatMap, List.flatMap_eq_nil_iff]
          intro other hmem
          refine filter_tasksOf_other fun he => hnodup.1 ?_
          rw [← he]
          exact List.mem_map_of_mem hmem
        have hall : (tasksOf dn its urb).filter (fun task => task.blockId = urb.blockId) = tasksOf dn its urb :=
          List.filter_eq_self.mpr fun task hmem => decide_eq_true (mem_tasksOf hmem).1
        rw [hothers, hall, List.append_nil]
      · have hne : first.blockId ≠ urb.blockId := fun he => hnodup.1 (he ▸ List.mem_map_of_mem hrest)
        rw [filter_tasksOf_other hne, List.nil_append, ih hnodup.2 hrest]

theorem gained_filter (tasks : List ReplicationTask) :
    gained transfers b (tasks.filter fun task => task.blockId = b) = gained transfers b tasks := by
  rw [gained, gained, List.filter_filter]
  congr 1
  apply List.filter_congr
  intro task _
  by_cases hb : task.blockId = b <;> simp [hb]

end MetadataStore

namespace DataNodeManager

variable {dn : DataNodeManager} {block : BlockInfo} {b : BlockId}

theorem Keyed.nodup_alive (h : dn.Keyed) (it : Iteration) : ((dn.getAliveDataNodes it).map DataNodeInfo.id).Nodup := by
  have hkeys : ((it.run dn.nodes.entries).map Prod.fst).Nodup :=
    ((it.perm _).map Prod.fst).nodup_iff.mpr dn.nodes.nodup_keys
  have hids : (it.run dn.nodes.entries).map (DataNodeInfo.id ∘ Prod.snd) = (it.run dn.nodes.entries).map Prod.fst :=
    List.map_congr_left fun p hp => h p.1 p.2 (SortedMap.find_eq_some.mpr (it.mem_run.mp hp))
  rw [← hids, ← List.map_map] at hkeys
  exact hkeys.sublist (List.filter_sublist.map _)

theorem Keyed.nodup_eligible (h : dn.Keyed) (it : Iteration) (locations : List DataNodeId) :
    ((dn.eligible it locations).map DataNodeInfo.id).Nodup :=
  (h.nodup_alive it).sublist (List.filter_sublist.map _)

theorem length_eligible (dn : DataNodeManager) (it it' : Iteration) (locations : List DataNodeId) :
    (dn.eligible it locations).length = (dn.eligible it' locations).length :=
  ((dn.getAliveDataNodes_perm it it').filter _).length_eq

theorem selectTargetNodes_eq (it : Iteration) (urb : UnderReplicatedBlock) (needCount : Int) :
    dn.selectTargetNodes it urb needCount =
      ((dn.eligible it (urb.existingLocations ++ urb.deadLocations)).map DataNodeInfo.id).take needCount.toNat := by
  have htake : ∀ ids : List DataNodeId, ids.take (min (ids.length : Int) needCount).toNat = ids.take needCount.toNat := by
    intro ids
    rcases Int.le_total (ids.length : Int) needCount with hle | hle
    · rw [Int.min_eq_left hle, Int.toNat_natCast, List.take_length, List.take_of_length_le (by omega)]
    · rw [Int.min_eq_right hle]
  exact htake _

theorem eligible_congr {it : Iteration} {locations locations' : List DataNodeId}
    (h : ∀ id, id ∈ locations ↔ id ∈ locations') : dn.eligible it locations = dn.eligible it locations' := by
  simp only [eligible, h]

/-- The targets of a block are the first of the DataNodes it may be copied to, as many as it needs. -/
theorem selectTargetNodes_replicasOf (it : Iteration) :
    dn.selectTargetNodes it (replicasOf dn b block)
        ((replicasOf dn b block).targetReplicas - (replicasOf dn b block).currentReplicas) =
      ((dn.eligible it block.locations).map DataNodeInfo.id).take
        (kReplicationFactor - dn.aliveCount block.locations) := by
  have hexcluded : ∀ id, id ∈ (replicasOf dn b block).existingLocations ++ (replicasOf dn b block).deadLocations ↔
      id ∈ block.locations := by
    intro id
    simp only [replicasOf, List.mem_append, List.mem_filter, decide_eq_true_eq]
    tauto
  have hneed : ((replicasOf dn b block).targetReplicas - (replicasOf dn b block).currentReplicas).toNat =
      kReplicationFactor - dn.aliveCount block.locations := by
    simp only [replicasOf]
    omega
  rw [selectTargetNodes_eq, eligible_congr hexcluded, hneed]

end DataNodeManager

namespace MetadataStore

variable {dn : DataNodeManager} {m : MetadataStore} {uninit : Int} {it files : Iteration} {its : BlockId → Iteration}
  {transfers : Transfers} {b : BlockId} {block : BlockInfo} {urb : UnderReplicatedBlock} {done : List ReplicationTask}

/-- The transfers of a repair round, in their order. -/
def roundTasks (m : MetadataStore) (dn : DataNodeManager) (uninit : Int) (it files : Iteration)
    (its : BlockId → Iteration) : List ReplicationTask :=
  (m.scanUnderReplicated dn uninit it files).flatMap (tasksOf dn its)

/-- Where a block may be copied to, as far as it needs copies. -/
def targetsOf (dn : DataNodeManager) (it : Iteration) (locations : List DataNodeId) : List DataNodeId :=
  ((dn.eligible it locations).map DataNodeInfo.id).take (kReplicationFactor - dn.aliveCount locations)

theorem getBlockLocations_of_some (h : m.getBlock b = some block) : m.getBlockLocations b = block.locations := by
  rw [getBlock] at h
  rw [getBlockLocations, h]
  rfl

theorem existingLocations_ne_nil : (replicasOf dn b block).existingLocations ≠ [] ↔ 0 < dn.aliveCount block.locations := by
  rw [DataNodeManager.aliveCount, List.countP_eq_length_filter, List.length_pos_iff]
  rfl

theorem tasksOf_targets (h : 0 < dn.aliveCount block.locations) :
    (tasksOf dn its (replicasOf dn b block)).map ReplicationTask.targetDn = targetsOf dn (its b) block.locations := by
  have hne := existingLocations_ne_nil (b := b).mpr h
  rw [tasksOf]
  cases hex : (replicasOf dn b block).existingLocations with
  | nil => exact absurd hex hne
  | cons source others =>
      have hid : (replicasOf dn b block).blockId = b := rfl
      simp only [List.map_map, Function.comp_def, List.map_id', hid]
      rw [DataNodeManager.selectTargetNodes_replicasOf, targetsOf]

theorem gained_sublist (tasks : List ReplicationTask) :
    (gained transfers b tasks).Sublist (tasks.map ReplicationTask.targetDn) := List.filter_sublist.map _

/-- There is no transfer of a block without an ALIVE location. -/
theorem aliveCount_of_task {task : ReplicationTask} (h : task ∈ m.roundTasks dn uninit it files its) :
    0 < dn.aliveCount (m.getBlockLocations task.blockId) := by
  obtain ⟨urb, hurb, hmem⟩ := List.mem_flatMap.mp h
  obtain ⟨hid, hex⟩ := mem_tasksOf hmem
  obtain ⟨block, hblock, -, heq⟩ := needing_eq_some.mp (mem_scanUnderReplicated.mp hurb).2
  rw [heq, existingLocations_ne_nil] at hex
  rw [hid, getBlockLocations_of_some hblock]
  exact hex

/-- What a block gets through the first transfers of a round. -/
theorem gained_round (hdone : done <+: m.roundTasks dn uninit it files its) (b : BlockId) :
    gained transfers b done = [] ∨
      ∃ block, m.getBlock b = some block ∧ 0 < dn.aliveCount block.locations ∧
        dn.aliveCount block.locations < kReplicationFactor ∧
        (gained transfers b done).Sublist (targetsOf dn (its b) block.locations) := by
  have hsub : (gained transfers b done).Sublist (gained transfers b (m.roundTasks dn uninit it files its)) :=
    (hdone.sublist.filter _).map _
  by_cases hscan : ∃ urb ∈ m.scanUnderReplicated dn uninit it files, urb.blockId = b
  · obtain ⟨urb, hurb, rfl⟩ := hscan
    obtain ⟨block, hblock, hfew, heq⟩ := needing_eq_some.mp (mem_scanUnderReplicated.mp hurb).2
    rw [← gained_filter (m.roundTasks dn uninit it files its), roundTasks,
      filter_flatMap_tasksOf (m.nodup_scanUnderReplicated dn uninit it files) hurb] at hsub
    rcases Nat.eq_zero_or_pos (dn.aliveCount block.locations) with hzero | halive
    · left
      have hnone : tasksOf dn its urb = [] := by
        rw [List.eq_nil_iff_forall_not_mem]
        intro task htask
        have halive := aliveCount_of_task (List.mem_flatMap.mpr ⟨urb, hurb, htask⟩ :
          task ∈ m.roundTasks dn uninit it files its)
        rw [(mem_tasksOf htask).1, getBlockLocations_of_some hblock] at halive
        omega
      rw [hnone] at hsub
      exact List.sublist_nil.mp hsub
    · refine .inr ⟨block, hblock, halive, hfew, hsub.trans ?_⟩
      rw [← tasksOf_targets (b := urb.blockId) halive, ← heq]
      exact gained_sublist _
  · left
    rw [← gained_filter (m.roundTasks dn uninit it files its)] at hsub
    have hnone : (m.roundTasks dn uninit it files its).filter (fun task => task.blockId = b) = [] := by
      rw [List.filter_eq_nil_iff]
      intro task htask
      obtain ⟨urb, hurb, hmem⟩ := List.mem_flatMap.mp htask
      rw [decide_eq_true_eq, (mem_tasksOf hmem).1]
      exact fun he => hscan ⟨urb, hurb, he⟩
    rw [hnone] at hsub
    exact List.sublist_nil.mp hsub

theorem mem_targetsOf {id : DataNodeId} {it : Iteration} {locations : List DataNodeId} (h : id ∈ targetsOf dn it locations) :
    id ∉ locations ∧ id ∈ dn.aliveSet it ∧
      ∃ info ∈ dn.getAliveDataNodes it, info.id = id ∧ kBlockSize ≤ info.freeSpace := by
  obtain ⟨info, hinfo, rfl⟩ := List.mem_map.mp (List.mem_of_mem_take h)
  obtain ⟨hmem, hok⟩ := List.mem_filter.mp hinfo
  obtain ⟨hnew, hfree⟩ := of_decide_eq_true hok
  exact ⟨hnew, List.mem_map_of_mem hmem, info, hmem, rfl, hfree⟩

/-- Copies to targets are ALIVE locations. -/
theorem aliveCount_append {it : Iteration} {locations added : List DataNodeId}
    (h : added.Sublist (targetsOf dn it locations)) :
    dn.aliveCount (locations ++ added) = dn.aliveCount locations + added.length := by
  rw [DataNodeManager.aliveCount, List.countP_append, DataNodeManager.aliveCount]
  congr 1
  rw [List.countP_eq_length]
  intro id hid
  exact decide_eq_true (DataNodeManager.mem_aliveSet.mp (mem_targetsOf (h.subset hid)).2.1)

/-- A block whose transfers all succeed gets every target. -/
theorem gained_round_all (hlists : m.Lists b) (hblock : m.getBlock b = some block)
    (halive : 0 < dn.aliveCount block.locations) (hfew : dn.aliveCount block.locations < kReplicationFactor)
    (hok : ∀ task ∈ m.roundTasks dn uninit it files its, task.blockId = b → transfers task = (true, true)) :
    gained transfers b (m.roundTasks dn uninit it files its) = targetsOf dn (its b) block.locations := by
  have hurb : replicasOf dn b block ∈ m.scanUnderReplicated dn uninit it files :=
    mem_scanUnderReplicated.mpr ⟨hlists, needing_eq_some.mpr ⟨block, hblock, hfew, rfl⟩⟩
  have htasks : (m.roundTasks dn uninit it files its).filter (fun task => task.blockId = b) =
      tasksOf dn its (replicasOf dn b block) :=
    filter_flatMap_tasksOf (m.nodup_scanUnderReplicated dn uninit it files) hurb
  have hall : (tasksOf dn its (replicasOf dn b block)).filter
      (fun task => task.blockId = b ∧ transfers task = (true, true)) = tasksOf dn its (replicasOf dn b block) := by
    refine List.filter_eq_self.mpr fun task hmem => decide_eq_true ⟨(mem_tasksOf hmem).1, ?_⟩
    exact hok task (List.mem_flatMap.mpr ⟨_, hurb, hmem⟩) (mem_tasksOf hmem).1
  rw [← gained_filter, htasks, gained, hall, tasksOf_targets halive]

/-- The locations of each block all along a round. -/
theorem getBlockLocations_round (hdn : dn.Keyed)
    (hlocs : ∀ b block, m.getBlock b = some block → block.locations.Nodup)
    (hdone : done <+: m.roundTasks dn uninit it files its) (b : BlockId) :
    (transferAll transfers m done).getBlockLocations b = m.getBlockLocations b ++ gained transfers b done := by
  apply getBlockLocations_transferAll
  have hnodup : (m.getBlockLocations b).Nodup := by
    rw [getBlockLocations, ← getBlock]
    cases hblock : m.getBlock b with
    | none => exact .nil
    | some block => exact hlocs b block hblock
  rcases gained_round hdone b with hnil | ⟨block, hblock, -, -, hsub⟩
  · rw [hnil, List.append_nil]
    exact hnodup
  · rw [getBlockLocations_of_some hblock] at hnodup ⊢
    refine List.nodup_append'.mpr ⟨hnodup, ?_, ?_⟩
    · exact ((hdn.nodup_eligible (its b) block.locations).sublist (List.take_sublist _ _)).sublist hsub
    · intro id hold hnew
      exact (mem_targetsOf (hsub.subset hnew)).1 hold

/-- One moment of a repair round. -/
theorem round_moment (hdn : dn.Keyed) (hlocs : ∀ b block, m.getBlock b = some block → block.locations.Nodup)
    {done : List ReplicationTask} (hdone : done <+: m.roundTasks dn uninit it files its) (b : BlockId) :
    (∃ added, (transferAll transfers m done).getBlockLocations b = m.getBlockLocations b ++ added ∧
        ∀ id ∈ added, id ∉ m.getBlockLocations b ∧
          ∃ info, dn.nodes.find id = some info ∧ info.status = .alive ∧ kBlockSize ≤ info.freeSpace) ∧
      dn.aliveCount ((transferAll transfers m done).getBlockLocations b) ≤
        max kReplicationFactor (dn.aliveCount (m.getBlockLocations b)) ∧
      (dn.aliveCount (m.getBlockLocations b) = 0 →
        (transferAll transfers m done).blocks.find b = m.blocks.find b) := by
  have hlost : dn.aliveCount (m.getBlockLocations b) = 0 →
      (transferAll transfers m done).blocks.find b = m.blocks.find b := by
    intro hzero
    refine find_transferAll fun task htask he => ?_
    have halive := aliveCount_of_task (hdone.subset htask)
    rw [he] at halive
    omega
  rw [getBlockLocations_round hdn hlocs hdone b]
  rcases gained_round hdone b with hnil | ⟨block, hblock, halive, hfew, hsub⟩
  · rw [hnil, List.append_nil]
    exact ⟨⟨[], (List.append_nil _).symm, fun id hid => by cases hid⟩, Nat.le_max_right _ _, hlost⟩
  · rw [getBlockLocations_of_some hblock]
    have hlen := hsub.length_le
    rw [targetsOf, List.length_take] at hlen
    rw [getBlockLocations_of_some hblock] at hlost
    refine ⟨⟨_, rfl, ?_⟩, ?_, hlost⟩
    · intro id hid
      obtain ⟨hnew, -, info, hinfo, hid, hfree⟩ := mem_targetsOf (hsub.subset hid)
      obtain ⟨⟨key, hkey⟩, hstatus⟩ := DataNodeManager.mem_getAliveDataNodes.mp hinfo
      obtain rfl := (hdn key info hkey).symm.trans hid
      exact ⟨hnew, info, hkey, hstatus, hfree⟩
    · rw [aliveCount_append hsub]
      omega

/-- A block of some file at the end of a round in which all its transfers succeed. -/
theorem round_end (hdn : dn.Keyed) (hlocs : ∀ b block, m.getBlock b = some block → block.locations.Nodup) {b : BlockId}
    (hlists : m.Lists b) (halive : 1 ≤ dn.aliveCount (m.getBlockLocations b))
    (hfew : dn.aliveCount (m.getBlockLocations b) < 3)
    (hok : ∀ task ∈ m.roundTasks dn uninit it files its, task.blockId = b → transfers task = (true, true)) :
    dn.aliveCount ((transferAll transfers m (m.roundTasks dn uninit it files its)).getBlockLocations b) =
      min 3 (dn.aliveCount (m.getBlockLocations b) + (dn.eligible .sorted (m.getBlockLocations b)).length) := by
  rw [getBlockLocations_round hdn hlocs List.prefix_rfl b]
  cases hblock : m.getBlock b with
  | none =>
      rw [getBlockLocations, ← getBlock, hblock] at halive
      cases halive
  | some block =>
      rw [getBlockLocations_of_some hblock] at halive hfew ⊢
      rw [gained_round_all hlists hblock halive hfew hok, aliveCount_append (.refl _), targetsOf, List.length_take,
        List.length_map, DataNodeManager.length_eligible dn (its b) .sorted]
      simp only [kReplicationFactor]
      omega

/-- What a repair round does, at every moment of it and at its end. The round is a sequence of transfers. At any moment
the locations of a block are the old ones and some ALIVE DataNodes with room that were not among them, there are no more
than three ALIVE ones if there were no more before, and a block without an ALIVE location is as it was. At the end a
block of some file has three ALIVE locations, or as many as can be. -/
theorem repair_round (hdn : dn.Keyed) (hlocs : ∀ b block, m.getBlock b = some block → block.locations.Nodup) :
    (repairUnderReplicated dn its transfers m (m.scanUnderReplicated dn uninit it files)).2 =
        transferAll transfers m (m.roundTasks dn uninit it files its) ∧
      (∀ done, done <+: m.roundTasks dn uninit it files its → ∀ b,
        (∃ added, (transferAll transfers m done).getBlockLocations b = m.getBlockLocations b ++ added ∧
          ∀ id ∈ added, id ∉ m.getBlockLocations b ∧
            ∃ info, dn.nodes.find id = some info ∧ info.status = .alive ∧ kBlockSize ≤ info.freeSpace) ∧
        dn.aliveCount ((transferAll transfers m done).getBlockLocations b) ≤
          max kReplicationFactor (dn.aliveCount (m.getBlockLocations b)) ∧
        (dn.aliveCount (m.getBlockLocations b) = 0 →
          (transferAll transfers m done).blocks.find b = m.blocks.find b)) ∧
      ∀ b, m.Lists b → 1 ≤ dn.aliveCount (m.getBlockLocations b) → dn.aliveCount (m.getBlockLocations b) < 3 →
        (∀ task ∈ m.roundTasks dn uninit it files its, task.blockId = b → transfers task = (true, true)) →
        dn.aliveCount ((transferAll transfers m (m.roundTasks dn uninit it files its)).getBlockLocations b) =
          min 3 (dn.aliveCount (m.getBlockLocations b) + (dn.eligible .sorted (m.getBlockLocations b)).length) := by
  refine ⟨repairUnderReplicated_snd m _, ?_, ?_⟩
  · intro done hdone b
    exact round_moment hdn hlocs hdone b
  · intro b hlists halive hfew hok
    exact round_end hdn hlocs hlists halive hfew hok

/-- A file with one block at a, and DataNodes a, b and c. -/
def blockAtA : MetadataStore where
  files := SortedMap.empty.insert (text "/f") { path := text "/f", blocks := [1] }
  blocks := SortedMap.empty.insert 1 { blockId := 1, locations := [text "a"] }

def nodesABC : DataNodeManager :=
  ((DataNodeManager.registerDataNode {} { id := text "a", freeSpace := kBlockSize } 0).registerDataNode
    { id := text "b", freeSpace := kBlockSize } 0).registerDataNode { id := text "c", freeSpace := kBlockSize } 0

theorem keyed_nodesABC : nodesABC.Keyed :=
  ((DataNodeManager.keyed_empty.registerDataNode _ 0).registerDataNode _ 0).registerDataNode _ 0

theorem nodup_blockAtA (files : SortedMap FilePath FileInfo) :
    ∀ b block, getBlock { blockAtA with files := files } b = some block → block.locations.Nodup := by
  intro b block h
  rw [getBlock, blockAtA, SortedMap.find_insert] at h
  split at h
  · cases h
    decide
  · cases h

theorem repair_round_blockAtA :
    nodesABC.Keyed ∧ (∀ b block, blockAtA.getBlock b = some block → block.locations.Nodup) ∧
      nodesABC.aliveCount ((transferAll (fun _ => (true, true)) blockAtA
        (blockAtA.roundTasks nodesABC 0 .sorted .sorted fun _ => .sorted)).getBlockLocations 1) = 3 := by
  refine ⟨keyed_nodesABC, nodup_blockAtA _, ?_⟩
  have hround := @repair_round nodesABC blockAtA 0 .sorted .sorted (fun _ => .sorted) (fun _ => (true, true)) keyed_nodesABC
    (nodup_blockAtA blockAtA.files)
  have hlists : blockAtA.Lists 1 := ⟨text "/f", _, SortedMap.find_eq_some.mpr List.mem_cons_self, List.mem_cons_self⟩
  exact (hround.2.2 1 hlists (by decide) (by decide) fun _ _ _ => rfl).trans (by decide)

/-- The round does not come to a block of no file. -/
theorem not_repaired_unlisted :
    ¬ ∀ (m : MetadataStore) (dn : DataNodeManager) (uninit : Int) (it files : Iteration) (its : BlockId → Iteration)
        (transfers : Transfers), dn.Keyed → (∀ b block, m.getBlock b = some block → block.locations.Nodup) →
      ∀ b, 1 ≤ dn.aliveCount (m.getBlockLocations b) → dn.aliveCount (m.getBlockLocations b) < 3 →
        (∀ task ∈ m.roundTasks dn uninit it files its, task.blockId = b → transfers task = (true, true)) →
        dn.aliveCount ((repairUnderReplicated dn its transfers m
            (m.scanUnderReplicated dn uninit it files)).2.getBlockLocations b) =
          min 3 (dn.aliveCount (m.getBlockLocations b) + (dn.eligible .sorted (m.getBlockLocations b)).length) := by
  intro hclaim
  have h := hclaim { blockAtA with files := .empty } nodesABC 0 .sorted .sorted (fun _ => .sorted)
    (fun _ => (true, true)) keyed_nodesABC (nodup_blockAtA .empty) 1 (by decide) (by decide) fun _ _ _ => rfl
  exact absurd h (by decide)

end MetadataStore

end MiniStorage.Namenode
