import MiniStorage.Namenode.HaServer

namespace MiniStorage.Namenode

/-- What one server sees of its DataNodes between two commands. A repair round checks their health and adds a
location for each copy it made. -/
inductive LocalEvent
  | registerDn (req : RegisterDataNodeRequest) (t : Moment)
  | heartbeat (req : HeartbeatRequest) (t : Moment)
  | blockReport (req : BlockReportRequest)
  | checkHealth (now : Int)
  | repair (now : Int) (copies : List (BlockId × DataNodeId))

/-- The way of one server to a command: what it sees before, and when it applies the command. -/
structure Way where
  before : List LocalEvent
  t : Moment

namespace NameNode

def locally (n : NameNode) : LocalEvent → NameNode
  | .registerDn req t => (n.handleRegisterDN req t).2
  | .heartbeat req t => (n.handleHeartbeat req t).2
  | .blockReport req => (n.handleBlockReport req).2
  | .checkHealth now => { n with dnManager := n.dnManager.checkDataNodeHealth now }
  | .repair now copies =>
      { n with
        dnManager := n.dnManager.checkDataNodeHealth now
        metadata := copies.foldl (fun m copy => m.updateBlockLocation copy.1 copy.2) n.metadata }

/-- The state in which a command finds the server. -/
def meets (n : NameNode) (way : Way) : NameNode := way.before.foldl locally n

/-- The blocks that the commands of a list allocate, and the state they leave. -/
def replicate (w : Wire NameNodeRequest) : NameNode → List (Bytes × Way) → List BlockInfo × NameNode
  | n, [] => ([], n)
  | n, (command, way) :: rest =>
      let (block, n) := (n.meets way).onApplyCommitted w command way.t
      let (blocks, n) := n.replicate w rest
      (block.toList ++ blocks, n)

/-- The ids of the DataNodes a block may go to, in the order in which AllocateBlock finds them. -/
def usableIds (n : NameNode) (t : Moment) : List DataNodeId :=
  (BlockManager.usable (n.dnManager.getAliveDataNodes t.it)).map DataNodeInfo.id

/-- Two servers would allocate the same block: their counters agree and they see the same usable DataNodes in
the same order, or neither sees one. -/
def SameChoice (n n' : NameNode) (t t' : Moment) : Prop :=
  n.usableIds t = n'.usableIds t' ∧
    (n.usableIds t ≠ [] →
      n.blockManager.nextBlockId = n'.blockManager.nextBlockId ∧
        n.blockManager.roundRobinIndex % (n.usableIds t).length =
          n'.blockManager.roundRobinIndex % (n.usableIds t).length)

/-- The condition on one command: where it allocates a block for a file, the servers would allocate the same. -/
def InStep (w : Wire NameNodeRequest) (n n' : NameNode) (command : Bytes) (t t' : Moment) : Prop :=
  ∀ req, w.parse command = some req → req.op = .allocateBlock →
    n.metadata.files.find (req.allocateBlock.getD {}).filePath ≠ none → SameChoice n n' t t'

/-- The condition on a whole list, with the way of either server to each command. -/
def AllInStep (w : Wire NameNodeRequest) : NameNode → NameNode → List (Bytes × Way × Way) → Prop
  | _, _, [] => True
  | n, n', (command, way, way') :: rest =>
      InStep w (n.meets way) (n'.meets way') command way.t way'.t ∧
        AllInStep w ((n.meets way).onApplyCommitted w command way.t).2
          ((n'.meets way').onApplyCommitted w command way'.t).2 rest

variable {n n' : NameNode} {t t' : Moment}

theorem files_locally (n : NameNode) (e : LocalEvent) : (n.locally e).metadata.files = n.metadata.files := by
  cases e with
  | registerDn req t => rfl
  | heartbeat req t => rw [locally, handleHeartbeat_eq]
  | blockReport req => exact files_reportBlocks _ _ _
  | checkHealth now => rfl
  | repair now copies =>
      have hfold (m : MetadataStore) :
          (copies.foldl (fun m copy => m.updateBlockLocation copy.1 copy.2) m).files = m.files := by
        induction copies generalizing m with
        | nil => rfl
        | cons copy copies ih => exact ih _
      exact hfold n.metadata

theorem blockManager_locally (n : NameNode) (e : LocalEvent) : (n.locally e).blockManager = n.blockManager := by
  cases e with
  | heartbeat req t => rw [locally, handleHeartbeat_eq]
  | registerDn | blockReport | checkHealth | repair => rfl

theorem files_meets (n : NameNode) (way : Way) : (n.meets way).metadata.files = n.metadata.files := by
  rw [meets]
  induction way.before generalizing n with
  | nil => rfl
  | cons e events ih => rw [List.foldl_cons, ih, files_locally]

theorem SameLists.isSome (h : SameLists n n') (p : FilePath) :
    n.metadata.files.find p = none ↔ n'.metadata.files.find p = none := by
  have hp := h p
  rw [← Option.map_eq_none_iff (f := FileInfo.blocks), hp, Option.map_eq_none_iff]

theorem SameChoice.chosenBlock (h : SameChoice n n' t t') :
    (n.chosenBlock t = none ∧ n'.chosenBlock t' = none) ∨
      ∃ block manager, n.chosenBlock t = some (block, manager) ∧ n'.chosenBlock t' = some (block, manager) := by
  obtain ⟨hids, hcounters⟩ := h
  have heq : n'.chosenBlock t' = n'.blockManager.allocateBlock (n.dnManager.getAliveDataNodes t.it) :=
    (n'.blockManager.allocateBlock_congr hids).symm
  by_cases hnil : n.usableIds t = []
  · have husable : BlockManager.usable (n.dnManager.getAliveDataNodes t.it) = [] := List.map_eq_nil_iff.mp hnil
    refine .inl ⟨BlockManager.allocateBlock_eq_none.mpr husable, ?_⟩
    rw [heq]
    exact BlockManager.allocateBlock_eq_none.mpr husable
  · obtain ⟨hnext, hcursor⟩ := hcounters hnil
    rw [usableIds, List.length_map] at hcursor
    have hsame : n'.chosenBlock t' = n.chosenBlock t :=
      heq.trans (BlockManager.allocateBlock_congr_manager hnext hcursor).symm
    rw [hsame]
    cases hb : n.chosenBlock t with
    | none => exact .inl ⟨rfl, rfl⟩
    | some chosen => exact .inr ⟨chosen.1, chosen.2, rfl, rfl⟩

theorem SameLists.createFile (h : SameLists n n') (path : FilePath) (now now' : Int) :
    SameLists { n with metadata := (n.metadata.createFile path now).2 }
      { n' with metadata := (n'.metadata.createFile path now').2 } := by
  intro p
  simp only [MetadataStore.find_createFile, h.isSome path]
  split
  · rfl
  · exact h p

theorem SameLists.removeFile (h : SameLists n n') (path : FilePath) (f f' : FileInfo) :
    SameLists { n with metadata := n.removeFile path f } { n' with metadata := n'.removeFile path f' } := by
  intro p
  simp only [files_removeFile]
  split
  · rfl
  · exact h p

theorem SameLists.commitBlock (h : SameLists n n') (path : FilePath) (block : BlockInfo) (manager : BlockManager) :
    SameLists { n with metadata := n.commitBlock path block t, blockManager := manager }
      { n' with metadata := n'.commitBlock path block t', blockManager := manager } := by
  intro p
  simp only [files_commitBlock]
  split
  · have hp := congrArg (Option.map (· ++ [block.blockId])) (h path)
    rw [Option.map_map, Option.map_map] at hp
    rw [Option.map_map, Option.map_map]
    exact hp
  · exact h p

/-- One command keeps the lists the same, and allocates the same block on both servers. -/
theorem SameLists.onApplyCommitted {w : Wire NameNodeRequest} {command : Bytes} (h : SameLists n n')
    (hstep : InStep w n n' command t t') :
    (n.onApplyCommitted w command t).1 = (n'.onApplyCommitted w command t').1 ∧
      SameLists (n.onApplyCommitted w command t).2 (n'.onApplyCommitted w command t').2 := by
  simp only [NameNode.onApplyCommitted]
  cases hparse : w.parse command with
  | none => exact ⟨rfl, h⟩
  | some req =>
      simp only [apply]
      cases hop : req.op with
      | createFile => exact ⟨rfl, h.createFile _ _ _⟩
      | deleteFile =>
          refine ⟨rfl, ?_⟩
          simp only [applyDeleteFile, MetadataStore.getFile]
          cases hf : n.metadata.files.find (req.deleteFile.getD {}).path with
          | none =>
              rw [(h.isSome _).mp hf]
              exact h
          | some f =>
              obtain ⟨f', hf'⟩ := Option.ne_none_iff_exists'.mp
                (fun hnone => by simp [(h.isSome _).mpr hnone] at hf :
                  n'.metadata.files.find (req.deleteFile.getD {}).path ≠ none)
              rw [hf']
              exact h.removeFile _ f f'
      | allocateBlock =>
          cases hf : n.metadata.files.find (req.allocateBlock.getD {}).filePath with
          | none =>
              have hf' := (h.isSome _).mp hf
              rw [applyAllocateBlock_none (.inl hf), applyAllocateBlock_none (.inl hf')]
              exact ⟨rfl, h⟩
          | some f =>
              obtain ⟨f', hf'⟩ := Option.ne_none_iff_exists'.mp
                (fun hnone => by simp [(h.isSome _).mpr hnone] at hf :
                  n'.metadata.files.find (req.allocateBlock.getD {}).filePath ≠ none)
              rcases (hstep req hparse hop (by simp [hf])).chosenBlock with ⟨hb, hb'⟩ | ⟨block, manager, hb, hb'⟩
              · rw [applyAllocateBlock_none (.inr hb), applyAllocateBlock_none (.inr hb')]
                exact ⟨rfl, h⟩
              · rw [applyAllocateBlock_some hf hb, applyAllocateBlock_some hf' hb']
                exact ⟨rfl, h.commitBlock _ block manager⟩
      | getFileBlocks | listFiles | registerDn | heartbeat | blockReport | unknown => exact ⟨rfl, h⟩

theorem SameLists.meets (h : SameLists n n') (way way' : Way) : SameLists (n.meets way) (n'.meets way') := by
  intro p
  rw [files_meets, files_meets]
  exact h p

theorem SameLists.replicate {w : Wire NameNodeRequest} (h : SameLists n n') (commands : List (Bytes × Way × Way))
    (hstep : AllInStep w n n' commands) :
    SameLists (n.replicate w (commands.map fun c => (c.1, c.2.1))).2
      (n'.replicate w (commands.map fun c => (c.1, c.2.2))).2 ∧
      (n.replicate w (commands.map fun c => (c.1, c.2.1))).1 =
        (n'.replicate w (commands.map fun c => (c.1, c.2.2))).1 := by
  induction commands generalizing n n' with
  | nil => exact ⟨h, rfl⟩
  | cons c commands ih =>
      obtain ⟨command, way, way'⟩ := c
      obtain ⟨hblock, hlists⟩ := (h.meets way way').onApplyCommitted hstep.1
      obtain ⟨hend, hblocks⟩ := ih hlists hstep.2
      simp only [List.map_cons, NameNode.replicate, hblock, hblocks]
      exact ⟨hend, trivial⟩

/-- Two servers that start from equal tables and would choose alike at each allocation end with the same block
lists, and have handed out the same blocks to the same DataNodes. -/
theorem replicas_agree (w : Wire NameNodeRequest) (n n' : NameNode) (h : n.metadata = n'.metadata)
    (commands : List (Bytes × Way × Way)) (hstep : AllInStep w n n' commands) :
    SameLists (n.replicate w (commands.map fun c => (c.1, c.2.1))).2
      (n'.replicate w (commands.map fun c => (c.1, c.2.2))).2 ∧
      (n.replicate w (commands.map fun c => (c.1, c.2.1))).1 =
        (n'.replicate w (commands.map fun c => (c.1, c.2.2))).1 := by
  apply SameLists.replicate _ commands hstep
  intro p
  rw [h]

/-- A server that d registers with before the allocation. -/
def withD (now : Int) : Way :=
  ⟨[.registerDn { datanodeId := text "d", freeSpace := 4194304 } ⟨now, .sorted⟩], ⟨now + 1, .sorted⟩⟩

/-- A server that no DataNode registers with. -/
def withoutD (now : Int) : Way := ⟨[], ⟨now, .sorted⟩⟩

theorem replicas_agree_one_block :
    let commands : List (Bytes × Way × Way) := [
      ([0x52, 0x04, 0x0a, 0x02, 0x2f, 0x61], withD 1, withoutD 4),
      ([0x08, 0x01, 0x5a, 0x04, 0x0a, 0x02, 0x2f, 0x61], withoutD 3, withD 6)]
    SameLists (replicate requestWire {} (commands.map fun c => (c.1, c.2.1))).2
        (replicate requestWire {} (commands.map fun c => (c.1, c.2.2))).2 ∧
      (replicate requestWire {} (commands.map fun c => (c.1, c.2.1))).1 =
        (replicate requestWire {} (commands.map fun c => (c.1, c.2.2))).1 := by
  refine replicas_agree requestWire {} {} rfl _ ⟨?_, ?_, trivial⟩
  · intro req hreq hop
    obtain rfl := Option.some.inj hreq
    cases hop
  · intro req hreq hop hfile
    exact ⟨by decide, fun _ => ⟨by decide, by decide⟩⟩

/-- The second server has no DataNode when it applies the allocation, so the file stays empty there. -/
theorem replicas_differ_without_datanode :
    let commands : List (Bytes × Way × Way) := [
      ([0x52, 0x04, 0x0a, 0x02, 0x2f, 0x61], withD 1, withoutD 4),
      ([0x08, 0x01, 0x5a, 0x04, 0x0a, 0x02, 0x2f, 0x61], withoutD 3, withoutD 5)]
    ¬ (SameLists (replicate requestWire {} (commands.map fun c => (c.1, c.2.1))).2
        (replicate requestWire {} (commands.map fun c => (c.1, c.2.2))).2) := by
  intro commands h
  have hlist := h (text "/a")
  revert hlist
  decide

end NameNode

end MiniStorage.Namenode
