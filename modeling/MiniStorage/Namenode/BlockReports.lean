import MiniStorage.Namenode.BlockReplicator
import MiniStorage.Namenode.Server

namespace MiniStorage.Namenode

open Runs

/-- A NameNode of either kind while it handles block reports and its replicator finishes copies.
`passed` is what UpdateBlockLocation was called with. -/
structure ReportServer where
  node : NameNode := {}
  workers : List Stage := []
  passed : List (BlockId × DataNodeId) := []

inductive ReportAction
  | accept (req : BlockReportRequest)
  | work (i : Nat) (t : Moment)
  | replicate (task : ReplicationTask) (fetched pushed : Bool)

namespace Stage

/-- What the next call of a worker hands to UpdateBlockLocation. -/
def locates : Stage → List (BlockId × DataNodeId)
  | .reportLocation id (item :: _) => [(item.blockId, id)]
  | _ => []

/-- The stages of HandleBlockReport. -/
def reporting : Stage → Bool
  | .reportLocation _ _ | .reportRead _ _ _ | .reportSize _ _ _ | .done _ => true
  | _ => false

/-- A worker that is about to write back a copy of a block knows of that location. -/
def Knows (b : BlockId) (dnId : DataNodeId) : Stage → Prop
  | .reportSize _ block _ => block.blockId = b → dnId ∈ block.locations
  | _ => True

instance (b : BlockId) (dnId : DataNodeId) (stage : Stage) : Decidable (stage.Knows b dnId) := by
  cases stage <;> unfold Knows <;> infer_instance

end Stage

namespace ReportServer

def step (s : ReportServer) : ReportAction → Option ReportServer
  | .accept req => some { s with workers := s.workers ++ [.reportLocation req.datanodeId req.blocks] }
  | .work i t =>
      match s.workers[i]? with
      | none => none
      | some stage =>
          if stage.isDone then none
          else some {
            node := (stage.advance s.node t).2
            workers := s.workers.set i (stage.advance s.node t).1
            passed := s.passed ++ stage.locates }
  | .replicate task fetched pushed =>
      some { s with
        node := { s.node with metadata := (s.node.metadata.replicate task fetched pushed).2 }
        passed := s.passed ++ if (fetched, pushed) = (true, true) then [(task.blockId, task.targetDn)] else [] }

/-- What an action hands to UpdateBlockLocation. -/
def locates (s : ReportServer) : ReportAction → List (BlockId × DataNodeId)
  | .accept _ => []
  | .work i _ => (s.workers[i]?.map Stage.locates).getD []
  | .replicate task fetched pushed => if (fetched, pushed) = (true, true) then [(task.blockId, task.targetDn)] else []

/-- No location goes to a block while a worker holds a copy of it without that location to write back. -/
def Timely (s : ReportServer) (a : ReportAction) : Prop :=
  ∀ p ∈ s.locates a, ∀ stage ∈ s.workers, stage.Knows p.1 p.2

instance (s : ReportServer) (a : ReportAction) : Decidable (Timely s a) := inferInstanceAs (Decidable (∀ p ∈ _, _))

/-- The block has an entry, under its own id. -/
def HasEntry (s : ReportServer) (b : BlockId) : Prop :=
  ∃ block, s.node.metadata.blocks.find b = some block ∧ block.blockId = b

/-- Everything passed is there, and the copies that are still to be written back have the locations of the table. -/
structure Kept (s : ReportServer) : Prop where
  reporting : ∀ stage ∈ s.workers, stage.reporting = true
  nodup : ∀ b, (s.node.metadata.getBlockLocations b).Nodup
  passed : ∀ p ∈ s.passed, p.2 ∈ s.node.metadata.getBlockLocations p.1
  read : ∀ id item items, .reportRead id item items ∈ s.workers → s.HasEntry item.blockId
  copies : ∀ id block items, .reportSize id block items ∈ s.workers →
    s.HasEntry block.blockId ∧ s.node.metadata.getBlockLocations block.blockId = block.locations

variable {s t : ReportServer} {a : ReportAction} {as : List ReportAction} {stage : Stage}

/-- UpdateBlockLocation, where every copy that is held knows of the location. -/
theorem Kept.locate (h : Kept s) {b : BlockId} {dnId : DataNodeId} (hknows : ∀ stage ∈ s.workers, stage.Knows b dnId) :
    Kept { s with
        node := { s.node with metadata := s.node.metadata.updateBlockLocation b dnId }
        passed := s.passed ++ [(b, dnId)] } ∧
      HasEntry { s with
        node := { s.node with metadata := s.node.metadata.updateBlockLocation b dnId }
        passed := s.passed ++ [(b, dnId)] } b := by
  have hentry : ∀ b', b' = b ∨ s.HasEntry b' → ∃ block,
      (s.node.metadata.updateBlockLocation b dnId).blocks.find b' = some block ∧ block.blockId = b' := by
    intro b' hb'
    obtain ⟨locations, hfind⟩ := s.node.metadata.find_updateBlockLocation b b' dnId
    by_cases he : b' = b
    · exact ⟨_, by rw [hfind, if_pos he], he.symm⟩
    · obtain ⟨block, hblock, hid⟩ := hb'.resolve_left he
      exact ⟨block, by rw [hfind, if_neg he, hblock], hid⟩
  refine ⟨⟨h.reporting, ?_, ?_, ?_, ?_⟩, hentry b (.inl rfl)⟩
  · exact fun b' => MetadataStore.nodup_updateBlockLocation (h.nodup b') b dnId
  · intro p hp
    rcases List.mem_append.mp hp with hp | hp
    · exact s.node.metadata.subset_updateBlockLocation b p.1 dnId (h.passed p hp)
    · rw [List.mem_singleton.mp hp]
      exact s.node.metadata.mem_updateBlockLocation b dnId
  · exact fun id item items hr => hentry _ (.inr (h.read id item items hr))
  · intro id block items hc
    obtain ⟨hblock, hcopy⟩ := h.copies id block items hc
    refine ⟨hentry _ (.inr hblock), ?_⟩
    simp only [MetadataStore.getBlockLocations_updateBlockLocation]
    split
    next he =>
      have hin : dnId ∈ block.locations := hknows _ hc he
      rw [if_pos (hcopy ▸ hin), hcopy]
    next => exact hcopy

/-- UpdateBlock with a copy that is held. -/
theorem Kept.writeBack (h : Kept s) {id : DataNodeId} {block : BlockInfo} {items : List BlockReportItem}
    (hheld : .reportSize id block items ∈ s.workers) :
    Kept { s with node := { s.node with metadata := (s.node.metadata.updateBlock block).2 } } := by
  obtain ⟨⟨old, hold, hid⟩, hcopy⟩ := h.copies id block items hheld
  have hfind : ∀ b, (s.node.metadata.updateBlock block).2.blocks.find b =
      if b = block.blockId then some block else s.node.metadata.blocks.find b := by
    intro b
    have hne : s.node.metadata.blocks.find block.blockId ≠ none := by rw [hold]; exact Option.some_ne_none _
    rw [MetadataStore.find_updateBlock]
    simp only [hne, ne_eq, not_false_eq_true, and_true]
  have hlocs : ∀ b, (s.node.metadata.updateBlock block).2.getBlockLocations b = s.node.metadata.getBlockLocations b := by
    intro b
    rw [MetadataStore.getBlockLocations, hfind]
    split
    next he => rw [he, hcopy]; rfl
    next => rfl
  have hentry : ∀ b, s.HasEntry b → ∃ e,
      (s.node.metadata.updateBlock block).2.blocks.find b = some e ∧ e.blockId = b := by
    rintro b ⟨e, he, hb⟩
    rw [hfind]
    split
    next heq => exact ⟨block, rfl, heq.symm⟩
    next => exact ⟨e, he, hb⟩
  refine ⟨h.reporting, fun b => ?_, fun p hp => ?_, fun id item items hr => hentry _ (h.read id item items hr),
    fun id block items hc => ?_⟩
  · rw [hlocs]
    exact h.nodup b
  · rw [hlocs]
    exact h.passed p hp
  · obtain ⟨hb, heq⟩ := h.copies id block items hc
    exact ⟨hentry _ hb, by rw [hlocs]; exact heq⟩

/-- A worker goes on to a stage that holds nothing but what the table has. -/
theorem Kept.setStage (h : Kept s) (i : Nat) (hreporting : stage.reporting = true)
    (hread : ∀ id item items, stage = .reportRead id item items → s.HasEntry item.blockId)
    (hcopy : ∀ id block items, stage = .reportSize id block items →
      s.HasEntry block.blockId ∧ s.node.metadata.getBlockLocations block.blockId = block.locations) :
    Kept { s with workers := s.workers.set i stage } := by
  have hmem : ∀ x, x ∈ s.workers.set i stage → x ∈ s.workers ∨ x = stage := fun x hx => List.mem_or_eq_of_mem_set hx
  refine ⟨fun x hx => ?_, h.nodup, h.passed, fun id item items hx => ?_, fun id block items hx => ?_⟩
  · exact (hmem x hx).elim (h.reporting x) fun he => he ▸ hreporting
  · exact (hmem _ hx).elim (h.read id item items) fun he => hread id item items he.symm
  · exact (hmem _ hx).elim (h.copies id block items) fun he => hcopy id block items he.symm

theorem Kept.accept (h : Kept s) (req : BlockReportRequest) :
    Kept { s with workers := s.workers ++ [.reportLocation req.datanodeId req.blocks] } := by
  have hmem : ∀ x, x ∈ s.workers ++ [.reportLocation req.datanodeId req.blocks] →
      x ∈ s.workers ∨ x = .reportLocation req.datanodeId req.blocks := fun x hx =>
    (List.mem_append.mp hx).imp_right List.mem_singleton.mp
  refine ⟨fun x hx => ?_, h.nodup, h.passed, fun id item items hx => ?_, fun id block items hx => ?_⟩
  · exact (hmem x hx).elim (h.reporting x) fun he => he ▸ rfl
  · exact (hmem _ hx).elim (h.read id item items) nofun
  · exact (hmem _ hx).elim (h.copies id block items) nofun

/-- One call of a worker. -/
theorem Kept.work (h : Kept s) {i : Nat} (hi : s.workers[i]? = some stage) (tm : Moment)
    (htimely : Timely s (.work i tm)) :
    Kept ⟨(stage.advance s.node tm).2, s.workers.set i (stage.advance s.node tm).1, s.passed ++ stage.locates⟩ := by
  have hmem := List.mem_of_getElem? hi
  have hlocates : s.locates (.work i tm) = stage.locates := by rw [ReportServer.locates, hi]; rfl
  cases stage with
  | reportLocation id items =>
      cases items with
      | nil =>
          simp only [Stage.locates, List.append_nil]
          exact h.setStage i rfl (fun _ _ _ he => by cases he) (fun _ _ _ he => by cases he)
      | cons item items =>
          have hknows : ∀ stage ∈ s.workers, stage.Knows item.blockId id :=
            htimely (item.blockId, id) (by rw [hlocates]; exact List.mem_cons_self)
          obtain ⟨hkept, hentry⟩ := h.locate hknows
          refine hkept.setStage i rfl (fun id' item' items' he => ?_) (fun _ _ _ he => by cases he)
          cases he
          exact hentry
  | reportRead id item items =>
      simp only [Stage.locates, List.append_nil]
      obtain ⟨existing, hfind, hid⟩ := h.read id item items hmem
      simp only [Stage.advance, MetadataStore.getBlock, hfind]
      split
      next =>
        refine h.setStage i rfl (fun _ _ _ he => by cases he) fun id' block items' he => ?_
        cases he
        refine ⟨⟨existing, by rw [hid]; exact hfind, rfl⟩, ?_⟩
        rw [hid, MetadataStore.getBlockLocations, hfind]
        rfl
      next => exact h.setStage i rfl (fun _ _ _ he => by cases he) (fun _ _ _ he => by cases he)
  | reportSize id block items =>
      simp only [Stage.locates, List.append_nil]
      exact (h.writeBack hmem).setStage i rfl (fun _ _ _ he => by cases he) (fun _ _ _ he => by cases he)
  | done resp =>
      simp only [Stage.locates, List.append_nil]
      exact h.setStage i rfl (fun _ _ _ he => by cases he) (fun _ _ _ he => by cases he)
  | createFile | checkFile | aliveNodes | pickBlock | addBlock | readFile | writeFile | locateFile | locateBlocks
  | findDoomed | deleteBlocks | listFiles | registerDn | heartbeat | append => cases h.reporting _ hmem

theorem Kept.step (h : Kept s) (htimely : Timely s a) (hs : s.step a = some t) : Kept t := by
  cases a with
  | accept req =>
      cases hs
      exact h.accept req
  | work i tm =>
      rw [ReportServer.step] at hs
      cases hi : s.workers[i]? with
      | none =>
          rw [hi] at hs
          cases hs
      | some stage =>
          simp only [hi, Option.ite_none_left_eq_some] at hs
          cases hs.2
          exact h.work hi tm htimely
  | replicate task fetched pushed =>
      cases hs
      rw [MetadataStore.replicate_snd]
      by_cases hok : (fetched, pushed) = (true, true)
      · rw [if_pos hok, if_pos hok]
        have hknows := htimely (task.blockId, task.targetDn) (by rw [locates, if_pos hok]; exact List.mem_cons_self)
        exact (h.locate hknows).1
      · rw [if_neg hok, if_neg hok, List.append_nil]
        exact h

/-- Every location that was passed to UpdateBlockLocation is in the table once, at the end and all along. -/
theorem no_lost_location {n : NameNode}
    (hlocs : ∀ b block, n.metadata.getBlock b = some block → block.locations.Nodup)
    (h : Run step Timely { node := n } as s) :
    ∀ p ∈ s.passed, (s.node.metadata.getBlockLocations p.1).count p.2 = 1 := by
  have hstart : Kept { node := n } := by
    refine ⟨nofun, fun b => ?_, nofun, nofun, nofun⟩
    rw [MetadataStore.getBlockLocations, ← MetadataStore.getBlock]
    cases hb : n.metadata.getBlock b with
    | none => exact .nil
    | some block => exact hlocs b block hb
  have hkept : Kept s := h.invariant (fun _ _ _ hi ha hs => Kept.step hi ha hs) hstart
  intro p hp
  exact List.count_eq_one_of_mem (hkept.nodup p.1) (hkept.passed p hp)

/-- A node that has no tables yet. -/
theorem nodup_empty : ∀ b block, ({} : NameNode).metadata.getBlock b = some block → block.locations.Nodup := by
  intro b block h
  cases h

/-- Two reports and a copy for one block; the second report comes to it when the first has written its size. -/
def timelyReports : List ReportAction :=
  [.accept ⟨text "d", [⟨1, 5⟩]⟩, .accept ⟨text "e", [⟨1, 5⟩]⟩, .work 0 ⟨0, .sorted⟩, .work 0 ⟨0, .sorted⟩,
    .work 0 ⟨0, .sorted⟩, .work 1 ⟨0, .sorted⟩, .replicate ⟨1, text "d", text "f"⟩ true true, .work 1 ⟨0, .sorted⟩,
    .work 1 ⟨0, .sorted⟩, .work 0 ⟨0, .sorted⟩]

theorem no_lost_location_timely : ∃ s, Run step Timely { node := {} } timelyReports s ∧
    s.passed.length = 3 ∧ ∀ p ∈ s.passed, (s.node.metadata.getBlockLocations p.1).count p.2 = 1 := by
  obtain ⟨s, hrun, hs⟩ := exists_run_of_exec step Timely { node := {} } timelyReports
    (fun s => s.passed.length = 3) (by decide)
  exact ⟨s, hrun, of_decide_eq_true hs, no_lost_location nodup_empty hrun⟩

/-- The second report comes between the copy of the first and its write-back. -/
theorem not_no_lost_location :
    ¬ ∀ (n : NameNode) (as : List ReportAction) (s : ReportServer),
      (∀ b block, n.metadata.getBlock b = some block → block.locations.Nodup) →
      Run step (fun _ _ => True) { node := n } as s → s.workers.all Stage.isDone = true →
      ∀ p ∈ s.passed, (s.node.metadata.getBlockLocations p.1).count p.2 = 1 := by
  intro hclaim
  obtain ⟨s, hrun, hs⟩ := exists_run_of_exec step (fun _ _ => True) { node := {} }
    [.accept ⟨text "d", [⟨1, 5⟩]⟩, .accept ⟨text "e", [⟨1, 5⟩]⟩, .work 0 ⟨0, .sorted⟩, .work 0 ⟨0, .sorted⟩,
      .work 1 ⟨0, .sorted⟩, .work 0 ⟨0, .sorted⟩, .work 1 ⟨0, .sorted⟩, .work 0 ⟨0, .sorted⟩, .work 1 ⟨0, .sorted⟩]
    (fun s => s.workers.all Stage.isDone && decide ((1, text "e") ∈ s.passed ∧
      (s.node.metadata.getBlockLocations 1).count (text "e") = 0)) (by decide)
  rw [Bool.and_eq_true, decide_eq_true_eq] at hs
  obtain ⟨hdone, hpassed, hcount⟩ := hs
  have h := hclaim {} _ s nodup_empty hrun hdone _ hpassed
  rw [hcount] at h
  cases h

end ReportServer

end MiniStorage.Namenode
