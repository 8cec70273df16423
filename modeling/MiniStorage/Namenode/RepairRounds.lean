import MiniStorage.Namenode.DataNodeCalls

namespace MiniStorage.Namenode

open Datanode

/-- How the two requests of each task fare. -/
abbrev Trips := ReplicationTask → Trip × Trip

namespace MetadataStore

section

variable {N : Type*} [DecidableEq N] (crc32 : Bytes → UInt32) (peer : Bytes → Int → N) (dn : DataNodeManager)
  (its : BlockId → Iteration) (trips : Trips)

/-- Replicate with the DataNodes at the other ends. Returns nothing where an exception leaves it. -/
def replicateOn (m : MetadataStore) (w : World N) (task : ReplicationTask) :
    Option (ReplicationResult × MetadataStore × World N) :=
  match fetchBlock crc32 peer (trips task).1 task.sourceDn task.blockId w with
  | (none, _) => none
  | (some none, w) =>
      let (result, m) := m.replicate task false false
      some (result, m, w)
  | (some (some data), w) =>
      match pushBlock crc32 peer (trips task).2 task.targetDn task.blockId data w with
      | (none, _) => none
      | (some pushed, w) =>
          let (result, m) := m.replicate task true pushed
          some (result, m, w)

/-- The loop over the targets of a block, with block_ok. -/
def repairTargetsOn (m : MetadataStore) (w : World N) (blockOk : Bool) :
    List ReplicationTask → Option (Bool × MetadataStore × World N)
  | [] => some (blockOk, m, w)
  | task :: tasks =>
      match m.replicateOn crc32 peer trips w task with
      | none => none
      | some (result, m, w) => m.repairTargetsOn w (blockOk && result.success) tasks

/-- The loop of RepairUnderReplicated over the number of repaired blocks. -/
def repairUnderReplicatedOn (m : MetadataStore) (w : World N) (repaired : Int) :
    List UnderReplicatedBlock → Option (Int × MetadataStore × World N)
  | [] => some (repaired, m, w)
  | urb :: urbs =>
      match urb.existingLocations with
      | [] => m.repairUnderReplicatedOn w repaired urbs
      | source :: _ =>
          let needCount := urb.targetReplicas - urb.currentReplicas
          if needCount ≤ 0 then m.repairUnderReplicatedOn w repaired urbs
          else
            let targets := dn.selectTargetNodes (its urb.blockId) urb needCount
            if targets.isEmpty then m.repairUnderReplicatedOn w repaired urbs
            else
              match m.repairTargetsOn crc32 peer trips w true (targets.map fun dnId => ⟨urb.blockId, source, dnId⟩) with
              | none => none
              | some (blockOk, m, w) => m.repairUnderReplicatedOn w (if blockOk then repaired + 1 else repaired) urbs

end

variable {N : Type*} [DecidableEq N] {crc32 : Bytes → UInt32} {peer : Bytes → Int → N} {dn : DataNodeManager}
  {its : BlockId → Iteration} {trips : Trips} {m m' : MetadataStore} {w w' : World N} {task : ReplicationTask}
  {tasks : List ReplicationTask} {urb : UnderReplicatedBlock} {urbs : List UnderReplicatedBlock}
  {result : ReplicationResult} {blockOk ok : Bool} {repaired n : Int}

/-- What is pushed: the block as its source gives it. -/
def carried (crc32 : Bytes → UInt32) (peer : Bytes → Int → N) (trips : Trips) (w : World N) (task : ReplicationTask) :
    Option Bytes :=
  if (trips task).1.hop = .answered then contentAt crc32 peer w task.sourceDn task.blockId else none

/-- The stores after a task. -/
def carry (crc32 : Bytes → UInt32) (peer : Bytes → Int → N) (trips : Trips) (w : World N) (task : ReplicationTask) :
    World N :=
  match carried crc32 peer trips w task, nodeAt peer task.targetDn with
  | some data, some node =>
      if (trips task).2.arrives then
        (w.writeBlock crc32 ((trips task).2.around peer).net 0 node task.blockId data).2
      else w
  | _, _ => w

/-- A task is a success exactly where the target has not stored the block, and only then is it recorded. -/
theorem replicateOn_eq (h : m.replicateOn crc32 peer trips w task = some (result, m', w')) :
    w' = carry crc32 peer trips w task ∧
      (result.success = true ↔ (carried crc32 peer trips w task).isSome = true ∧ (trips task).2.hop = .answered ∧
        (trips task).2.disk.lets = false ∧ nodeAt peer task.targetDn ≠ none) ∧
      m' = if result.success then m.updateBlockLocation task.blockId task.targetDn else m := by
  obtain ⟨hworld, hgot⟩ := @fetchBlock_eq _ _ crc32 peer (trips task).1 task.sourceDn task.blockId w
  rw [replicateOn] at h
  rcases hfetch : fetchBlock crc32 peer (trips task).1 task.sourceDn task.blockId w with ⟨_ | _ | data, w₁⟩
  · rw [hfetch] at h
    cases h
  · rw [hfetch] at h hworld hgot
    obtain rfl : w₁ = w := hworld
    have hnone : carried crc32 peer trips w₁ task = none := (hgot none rfl).symm
    cases h
    refine ⟨?_, ?_, rfl⟩
    · simp only [carry, hnone]
    · simp only [hnone, Option.isSome_none, Bool.false_eq_true, false_and]
  · rw [hfetch] at h hworld hgot
    obtain rfl : w₁ = w := hworld
    have hsome : carried crc32 peer trips w₁ task = some data := (hgot (some data) rfl).symm
    obtain ⟨hpushed, hstored⟩ := @pushBlock_eq _ _ crc32 peer (trips task).2 task.targetDn task.blockId data w₁
    rcases hpush : pushBlock crc32 peer (trips task).2 task.targetDn task.blockId data w₁ with ⟨_ | pushed, w₂⟩
    · simp only [hpush] at h
      cases h
    · simp only [hpush, Option.some.injEq] at h hpushed hstored
      have hcarry : w₂ = carry crc32 peer trips w₁ task := by
        rw [hstored, carry, hsome]
        cases nodeAt peer task.targetDn <;> rfl
      cases pushed with
      | false =>
          cases h
          refine ⟨hcarry, iff_of_false Bool.false_ne_true ?_, rfl⟩
          exact fun hall => Bool.false_ne_true (hpushed.mpr hall.2)
      | true =>
          cases h
          exact ⟨hcarry, iff_of_true rfl ⟨hsome ▸ rfl, hpushed.mp rfl⟩, rfl⟩

/-- The stores after some tasks. -/
def carryAll (crc32 : Bytes → UInt32) (peer : Bytes → Int → N) (trips : Trips) (w : World N)
    (tasks : List ReplicationTask) : World N :=
  tasks.foldl (carry crc32 peer trips) w

/-- What tasks make of the locations: none is lost, and one that was not there before is that of a DataNode that was
sent the block and did not store it. -/
structure RecordsFailures (peer : Bytes → Int → N) (trips : Trips) (m m' : MetadataStore)
    (tasks : List ReplicationTask) :
    Prop where
  keeps : ∀ b, m.getBlockLocations b <+: m'.getBlockLocations b
  fails : ∀ b d, d ∈ m'.getBlockLocations b → d ∈ m.getBlockLocations b ∨
    ∃ task ∈ tasks, task.blockId = b ∧ task.targetDn = d ∧ (trips task).2.disk.lets = false ∧
      (trips task).2.hop = .answered ∧ nodeAt peer d ≠ none

omit [DecidableEq N] in
theorem RecordsFailures.refl (m : MetadataStore) (tasks : List ReplicationTask) :
    RecordsFailures peer trips m m tasks :=
  ⟨fun _ => List.prefix_refl _, fun _ _ hd => .inl hd⟩

omit [DecidableEq N] in
theorem RecordsFailures.trans {m₁ : MetadataStore} {tasks' : List ReplicationTask}
    (h : RecordsFailures peer trips m m₁ tasks) (h' : RecordsFailures peer trips m₁ m' tasks') :
    RecordsFailures peer trips m m' (tasks ++ tasks') := by
  refine ⟨fun b => (h.keeps b).trans (h'.keeps b), fun b d hd => ?_⟩
  rcases h'.fails b d hd with hd₁ | ⟨task, hmem, hrest⟩
  · rcases h.fails b d hd₁ with hd₂ | ⟨task, hmem, hrest⟩
    · exact .inl hd₂
    · exact .inr ⟨task, List.mem_append_left _ hmem, hrest⟩
  · exact .inr ⟨task, List.mem_append_right _ hmem, hrest⟩

/-- One task. -/
theorem recordsFailures_replicateOn (h : m.replicateOn crc32 peer trips w task = some (result, m', w')) :
    RecordsFailures peer trips m m' [task] := by
  obtain ⟨-, hsuccess, hm'⟩ := replicateOn_eq h
  by_cases hres : result.success = true
  · obtain ⟨-, hhop, hlets, hnode⟩ := hsuccess.mp hres
    rw [if_pos hres] at hm'
    subst hm'
    refine ⟨fun b => ?_, fun b d hd => ?_⟩
    · rw [getBlockLocations_updateBlockLocation]
      split
      next =>
        split
        next => exact List.prefix_refl _
        next => exact List.prefix_append _ _
      next => exact List.prefix_refl _
    · rw [getBlockLocations_updateBlockLocation] at hd
      split at hd
      next hb =>
        split at hd
        next => exact .inl hd
        next =>
          rcases List.mem_append.mp hd with hold | hsame
          · exact .inl hold
          · obtain rfl := List.mem_singleton.mp hsame
            exact .inr ⟨task, List.mem_singleton_self task, hb.symm, rfl, hlets, hhop, hnode⟩
      next => exact .inl hd
  · rw [if_neg hres] at hm'
    rw [hm']
    exact .refl m _

theorem repairTargetsOn_eq (h : m.repairTargetsOn crc32 peer trips w blockOk tasks = some (ok, m', w')) :
    w' = carryAll crc32 peer trips w tasks ∧ RecordsFailures peer trips m m' tasks ∧
      (ok = true → blockOk = true ∧ ∀ task ∈ tasks, (trips task).2.disk.lets = false) ∧
      ((∀ task ∈ tasks, (trips task).2.disk.lets = true) → m' = m) := by
  induction tasks generalizing m w blockOk with
  | nil =>
      cases h
      exact ⟨rfl, .refl m' _, fun hok => ⟨hok, nofun⟩, fun _ => rfl⟩
  | cons task tasks ih =>
      rw [repairTargetsOn] at h
      split at h
      next => cases h
      next result m₁ w₁ hstep =>
        have hfirst := recordsFailures_replicateOn hstep
        obtain ⟨rfl, hsuccess, hm₁⟩ := replicateOn_eq hstep
        obtain ⟨hworld, hrecords, hok, hsound⟩ := ih h
        refine ⟨hworld, hfirst.trans hrecords, fun htrue => ?_, fun hlets => ?_⟩
        · obtain ⟨hboth, hall⟩ := hok htrue
          obtain ⟨hblock, hres⟩ := Bool.and_eq_true_iff.mp hboth
          exact ⟨hblock, List.forall_mem_cons.mpr ⟨(hsuccess.mp hres).2.2.1, hall⟩⟩
        · obtain ⟨hlet, hrest⟩ := List.forall_mem_cons.mp hlets
          have hres : result.success ≠ true := fun hres => by
            rw [(hsuccess.mp hres).2.2.1] at hlet
            cases hlet
          rw [hsound hrest, hm₁, if_neg hres]

/-- The turn of a block makes its tasks. -/
theorem repairUnderReplicatedOn_cons (h : m.repairUnderReplicatedOn crc32 peer dn its trips w repaired (urb :: urbs) =
      some (n, m', w')) :
    tasksOf dn its urb = [] ∧ m.repairUnderReplicatedOn crc32 peer dn its trips w repaired urbs = some (n, m', w') ∨
      ∃ ok m₁ w₁, m.repairTargetsOn crc32 peer trips w true (tasksOf dn its urb) = some (ok, m₁, w₁) ∧
        tasksOf dn its urb ≠ [] ∧
        m₁.repairUnderReplicatedOn crc32 peer dn its trips w₁ (if ok then repaired + 1 else repaired) urbs =
          some (n, m', w') := by
  rw [repairUnderReplicatedOn] at h
  rw [tasksOf]
  cases hex : urb.existingLocations with
  | nil =>
      rw [hex] at h
      exact .inl ⟨rfl, h⟩
  | cons source others =>
      simp only [hex] at h
      split at h
      next hneed => exact .inl ⟨by rw [selectTargetNodes_nil hneed]; rfl, h⟩
      next =>
        split at h
        next hnone => exact .inl ⟨by rw [List.isEmpty_iff.mp hnone]; rfl, h⟩
        next hsome =>
          split at h
          next => cases h
          next ok m₁ w₁ htargets =>
            refine .inr ⟨ok, m₁, w₁, htargets, ?_, h⟩
            rw [Ne, List.map_eq_nil_iff, ← List.isEmpty_iff]
            exact hsome

/-- No target of the block, of which there is one, has stored it. -/
def Unstored (dn : DataNodeManager) (its : BlockId → Iteration) (trips : Trips) (urb : UnderReplicatedBlock) : Prop :=
  tasksOf dn its urb ≠ [] ∧ ∀ task ∈ tasksOf dn its urb, (trips task).2.disk.lets = false

instance (urb : UnderReplicatedBlock) : Decidable (Unstored dn its trips urb) := inferInstanceAs (Decidable (_ ∧ _))

/-- A round of repairs copies the blocks to their targets. It records no target but one that has been sent the block
and has not stored it, and counts no block as repaired but one that no target has stored. With disks that store what
they are sent it records nothing. -/
theorem repairUnderReplicatedOn_eq
    (h : m.repairUnderReplicatedOn crc32 peer dn its trips w repaired urbs = some (n, m', w')) :
    let tasks := urbs.flatMap (tasksOf dn its)
    w' = carryAll crc32 peer trips w tasks ∧ RecordsFailures peer trips m m' tasks ∧
      (repaired ≤ n ∧ n ≤ repaired + (urbs.countP fun urb => Unstored dn its trips urb)) ∧
      ((∀ task ∈ tasks, (trips task).2.disk.lets = true) → m' = m) := by
  intro tasks
  induction urbs generalizing m w repaired with
  | nil =>
      cases h
      exact ⟨rfl, .refl m' _, ⟨Int.le_refl _, by simp⟩, fun _ => rfl⟩
  | cons urb urbs ih =>
      have htasks : tasks = tasksOf dn its urb ++ urbs.flatMap (tasksOf dn its) := List.flatMap_cons
      rw [htasks, List.countP_cons]
      rcases repairUnderReplicatedOn_cons h with ⟨hnone, hrest⟩ | ⟨ok, m₁, w₁, htargets, hsome, hrest⟩
      · obtain ⟨hworld, hrecords, hcount, hsound⟩ := ih hrest
        rw [hnone, List.nil_append]
        exact ⟨hworld, hrecords, ⟨hcount.1, by split <;> omega⟩, hsound⟩
      · obtain ⟨hworld₁, hrecords₁, hok, hsound₁⟩ := repairTargetsOn_eq htargets
        obtain ⟨hworld, hrecords, hcount, hsound⟩ := ih hrest
        refine ⟨?_, hrecords₁.trans hrecords, ?_, fun hlets => ?_⟩
        · rw [hworld, hworld₁, carryAll, carryAll, carryAll, List.foldl_append]
        · cases ok with
          | false =>
              simp only [Bool.false_eq_true, if_false] at hcount
              exact ⟨hcount.1, by split <;> omega⟩
          | true =>
              have hunstored : Unstored dn its trips urb := ⟨hsome, (hok rfl).2⟩
              simp only [if_true] at hcount
              rw [if_pos (decide_eq_true hunstored)]
              exact ⟨by omega, by omega⟩
        · obtain ⟨hfirst, hothers⟩ := List.forall_mem_append.mp hlets
          rw [hsound hothers, hsound₁ hfirst]

end MetadataStore

/-! What a round is for: the targets get the blocks of their sources. -/

variable {N : Type*} [DecidableEq N] {crc32 : Bytes → UInt32} {peer : Bytes → Int → N} {trips : Trips} {b : Blocks N}
  {w : World N} {task : ReplicationTask} {tasks : List ReplicationTask}

/-- What the source of a task has of the block, if it is asked for it. -/
def taken (peer : Bytes → Int → N) (trips : Trips) (b : Blocks N) (task : ReplicationTask) : Option Bytes :=
  if (trips task).1.hop = .answered then (nodeAt peer task.sourceDn).bind fun node => b node task.blockId else none

def copy (peer : Bytes → Int → N) (trips : Trips) (b : Blocks N) (task : ReplicationTask) : Blocks N :=
  match taken peer trips b task, nodeAt peer task.targetDn with
  | some data, some node => if (trips task).2.arrives then b.set node task.blockId (some data) else b
  | _, _ => b

omit [DecidableEq N] in
theorem exists_of_taken {data : Bytes} (h : taken peer trips b task = some data) :
    ∃ source, b source task.blockId = some data := by
  rw [taken] at h
  split at h
  next =>
    obtain ⟨source, -, hdata⟩ := Option.bind_eq_some_iff.mp h
    exact ⟨source, hdata⟩
  next => cases h

theorem copies_copy (b : Blocks N) (task : ReplicationTask) :
    Relation.ReflTransGen Holdings.Copy b (copy peer trips b task) := by
  rw [copy]
  cases htaken : taken peer trips b task with
  | none => exact .refl
  | some data =>
      cases nodeAt peer task.targetDn with
      | none => exact .refl
      | some target =>
          dsimp only
          split
          next =>
            obtain ⟨source, hdata⟩ := exists_of_taken htaken
            exact .single (.copied source target task.blockId data hdata)
          next => exact .refl

theorem copies_foldl (b : Blocks N) (tasks : List ReplicationTask) :
    Relation.ReflTransGen Holdings.Copy b (tasks.foldl (copy peer trips) b) := by
  induction tasks generalizing b with
  | nil => exact .refl
  | cons task tasks ih => exact (copies_copy b task).trans (ih _)

omit [DecidableEq N] in
theorem contentAt_of_mirrors (h : ∀ n, Mirrors crc32 (b n) (w.stores n)) (address : DataNodeId) (id : BlockId) :
    contentAt crc32 peer w address id = (nodeAt peer address).bind fun node => b node id := by
  rw [contentAt]
  cases nodeAt peer address with
  | none => rfl
  | some node =>
      simp only [Option.bind_some]
      obtain ⟨ok, got, hread, hpart⟩ := (h node).read id (.inl (Int.le_refl 0))
      rw [hread]
      cases hid : b node id with
      | none =>
          rw [hid] at hpart
          cases ok with
          | false => rfl
          | true => cases hpart
      | some data =>
          rw [hid, Option.bind_some, if_neg (by omega)] at hpart
          cases ok with
          | false => cases hpart
          | true =>
              obtain rfl := Option.some.inj hpart
              simp [ranged]

/-- A task whose target has a sound disk. -/
theorem mirrors_carry (h : ∀ n, Mirrors crc32 (b n) (w.stores n)) (hdisk : (trips task).2.disk.Sound) :
    ∀ n, Mirrors crc32 (copy peer trips b task n) ((MetadataStore.carry crc32 peer trips w task).stores n) := by
  have hcarried : MetadataStore.carried crc32 peer trips w task = taken peer trips b task := by
    rw [MetadataStore.carried, taken, contentAt_of_mirrors h]
  rw [MetadataStore.carry, copy, hcarried]
  cases htaken : taken peer trips b task with
  | none => exact h
  | some data =>
      obtain ⟨source, hdata⟩ := exists_of_taken htaken
      cases nodeAt peer task.targetDn with
      | none => exact h
      | some node =>
          dsimp only
          split
          next => exact forall_mirrors_update h ((h node).write hdisk ((h source).data _ _ hdata).2.1 task.blockId)
          next => exact h

theorem mirrors_carryAll (h : ∀ n, Mirrors crc32 (b n) (w.stores n)) (hdisks : ∀ task, (trips task).2.disk.Sound) :
    ∀ n, Mirrors crc32 (tasks.foldl (copy peer trips) b n)
      ((MetadataStore.carryAll crc32 peer trips w tasks).stores n) := by
  induction tasks generalizing b w with
  | nil => exact h
  | cons task tasks ih => exact ih (mirrors_carry h (hdisks task))

end MiniStorage.Namenode
