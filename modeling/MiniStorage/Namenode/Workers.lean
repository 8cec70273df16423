import MiniStorage.Namenode.NameNode
import Mathlib.Logic.Function.Iterate

namespace MiniStorage.Namenode

/-- Where a worker thread of NameNodeServer stands in ProcessRequest. Between two stages lies one call of a
component, which its mutex makes atomic. -/
inductive Stage
  | createFile (req : CreateFileRequest)
  | checkFile (req : AllocateBlockRequest)
  | aliveNodes (req : AllocateBlockRequest)
  | pickBlock (req : AllocateBlockRequest) (alive : List DataNodeInfo)
  | addBlock (req : AllocateBlockRequest) (block : BlockInfo)
  | readFile (req : AllocateBlockRequest) (block : BlockInfo)
  | writeFile (req : AllocateBlockRequest) (block : BlockInfo) (f : FileInfo)
  | locateFile (req : GetFileBlocksRequest)
  | locateBlocks (f : FileInfo) (found : List BlockLocation) (rest : List BlockId)
  | findDoomed (req : DeleteFileRequest)
  | deleteBlocks (req : DeleteFileRequest) (f : FileInfo) (rest : List BlockId)
  | listFiles (req : ListFilesRequest)
  | registerDn (req : RegisterDataNodeRequest)
  | heartbeat (req : HeartbeatRequest)
  | reportLocation (id : DataNodeId) (items : List BlockReportItem)
  | reportRead (id : DataNodeId) (item : BlockReportItem) (items : List BlockReportItem)
  | reportSize (id : DataNodeId) (block : BlockInfo) (items : List BlockReportItem)
  | append (resp : NameNodeResponse)
  | done (resp : NameNodeResponse)

namespace Stage

open NameNode

/-- The switch of ProcessRequest. -/
def entry (req : NameNodeRequest) : Stage :=
  match req.op with
  | .createFile => .createFile (req.createFile.getD {})
  | .allocateBlock => .checkFile (req.allocateBlock.getD {})
  | .getFileBlocks => .locateFile (req.getFileBlocks.getD {})
  | .deleteFile => .findDoomed (req.deleteFile.getD {})
  | .listFiles => .listFiles (req.listFiles.getD {})
  | .registerDn => .registerDn (req.registerDn.getD {})
  | .heartbeat => .heartbeat (req.heartbeat.getD {})
  | .blockReport => .reportLocation (req.blockReport.getD {}).datanodeId (req.blockReport.getD {}).blocks
  | .unknown _ => .done (failure (text "Unknown operation"))

def allocated (block : BlockInfo) : NameNodeResponse :=
  { success := true
    allocateBlock := some { success := true, blockId := block.blockId, datanodeAddresses := block.locations } }

/-- One call, with what the thread does on its own after it. -/
def advance (n : NameNode) (t : Moment) : Stage → Stage × NameNode
  | .createFile req =>
      (.append (n.handleCreateFile req t).1, (n.handleCreateFile req t).2)
  | .checkFile req =>
      if (n.metadata.getFile req.filePath).isNone then (.done (failure (text "File not found: " ++ req.filePath)), n)
      else (.aliveNodes req, n)
  | .aliveNodes req =>
      let alive := n.dnManager.getAliveDataNodes t.it
      if alive.isEmpty then (.done (failure (text "No available DataNode")), n) else (.pickBlock req alive, n)
  | .pickBlock req alive =>
      match n.blockManager.allocateBlock alive with
      | none => (.done (failure (text "No available DataNode to allocate block")), n)
      | some (block, blockManager) => (.addBlock req block, { n with blockManager := blockManager })
  | .addBlock req block => (.readFile req block, { n with metadata := n.metadata.addBlock block })
  | .readFile req block =>
      match n.metadata.getFile req.filePath with
      | some f => (.writeFile req block { f with blocks := f.blocks ++ [block.blockId] }, n)
      | none => (.done (allocated block), n)
  | .writeFile req block f =>
      -- what UpdateFile returns is not looked at
      (.done (allocated block), { n with metadata := (n.metadata.updateFile req.filePath f t.now).2 })
  | .locateFile req =>
      match n.metadata.getFile req.path with
      | none => (.done (failure (text "File not found: " ++ req.path)), n)
      | some f => (.locateBlocks f [] f.blocks, n)
  | .locateBlocks f found [] =>
      (.done { success := true, getFileBlocks := some { success := true, path := f.path, size := f.size, blocks := found } }, n)
  | .locateBlocks f found (b :: rest) => (.locateBlocks f (found ++ [n.blockLocation b]) rest, n)
  | .findDoomed req =>
      match n.metadata.getFile req.path with
      | none => (.append (failure (text "File not found: " ++ req.path)), n)
      | some f => (.deleteBlocks req f f.blocks, n)
  | .deleteBlocks req f (b :: rest) => (.deleteBlocks req f rest, { n with metadata := (n.metadata.deleteBlock b).2 })
  | .deleteBlocks req _ [] =>
      (.append { success := true }, { n with metadata := (n.metadata.deleteFile req.path).2 })
  | .listFiles req => (.done (n.handleListFiles req t), n)
  | .registerDn req => (.done (n.handleRegisterDN req t).1, (n.handleRegisterDN req t).2)
  | .heartbeat req => (.done (n.handleHeartbeat req t).1, (n.handleHeartbeat req t).2)
  | .reportLocation _ [] => (.done { success := true }, n)
  | .reportLocation id (item :: items) =>
      (.reportRead id item items, { n with metadata := n.metadata.updateBlockLocation item.blockId id })
  | .reportRead id item items =>
      match n.metadata.getBlock item.blockId with
      | some existing =>
          if existing.size = 0 ∧ item.size > 0 then (.reportSize id { existing with size := item.size } items, n)
          else (.reportLocation id items, n)
      | none => (.reportLocation id items, n)
  | .reportSize id block items => (.reportLocation id items, { n with metadata := (n.metadata.updateBlock block).2 })
  | .append resp => (.done resp, n)
  | .done resp => (.done resp, n)

/-- A worker that runs while no other does, all at one moment. -/
def alone (t : Moment) (s : Stage × NameNode) : Stage × NameNode := s.1.advance s.2 t

def Leads (t : Moment) (s s' : Stage × NameNode) : Prop := ∃ k, (alone t)^[k] s = s'

variable {t : Moment} {s s' s'' : Stage × NameNode} {n : NameNode}

theorem Leads.refl (s : Stage × NameNode) : Leads t s s := ⟨0, rfl⟩

theorem Leads.step (h : Leads t (alone t s) s') : Leads t s s' := by
  obtain ⟨k, hk⟩ := h
  exact ⟨k + 1, by rwa [Function.iterate_succ_apply]⟩

theorem Leads.trans (h : Leads t s s') (h' : Leads t s' s'') : Leads t s s'' := by
  obtain ⟨k, rfl⟩ := h
  obtain ⟨l, rfl⟩ := h'
  exact ⟨l + k, Function.iterate_add_apply ..⟩

theorem leads_append (resp : NameNodeResponse) : Leads t (.append resp, n) (.done resp, n) := .step (.refl _)

theorem leads_deleteBlocks (req : DeleteFileRequest) (f : FileInfo) (rest : List BlockId) (n : NameNode) :
    Leads t (.deleteBlocks req f rest, n)
      (.deleteBlocks req f [], { n with metadata := rest.foldl (fun m bid => (m.deleteBlock bid).2) n.metadata }) := by
  induction rest generalizing n with
  | nil => exact .refl _
  | cons b rest ih => exact .step (ih { n with metadata := (n.metadata.deleteBlock b).2 })

theorem leads_locateBlocks (f : FileInfo) (found : List BlockLocation) (rest : List BlockId) :
    Leads t (.locateBlocks f found rest, n) (.locateBlocks f (found ++ rest.map n.blockLocation) [], n) := by
  induction rest generalizing found with
  | nil =>
      rw [List.map_nil, List.append_nil]
      exact .refl _
  | cons b rest ih =>
      apply Leads.step
      have hrest := ih (found ++ [n.blockLocation b])
      rw [List.append_assoc] at hrest
      exact hrest

theorem leads_reportItem (id : DataNodeId) (item : BlockReportItem) (items : List BlockReportItem) (n : NameNode) :
    Leads t (.reportLocation id (item :: items), n)
      (.reportLocation id items, { n with metadata := reportBlock id n.metadata item }) := by
  apply Leads.step
  apply Leads.step
  simp only [alone, advance, reportBlock]
  cases (n.metadata.updateBlockLocation item.blockId id).getBlock item.blockId with
  | none => exact .refl _
  | some existing =>
      simp only
      split
      next hsize => exact .step (.refl _)
      next hsize => exact .refl _

theorem leads_reportLocation (id : DataNodeId) (items : List BlockReportItem) (n : NameNode) :
    Leads t (.reportLocation id items, n)
      (.done { success := true }, { n with metadata := items.foldl (reportBlock id) n.metadata }) := by
  induction items generalizing n with
  | nil => exact .step (.refl _)
  | cons item items ih => exact (leads_reportItem id item items n).trans (ih _)

theorem leads_allocate (req : AllocateBlockRequest) :
    Leads t (.checkFile req, n) (.done (n.handleAllocateBlock req t).1, (n.handleAllocateBlock req t).2) := by
  apply Leads.step
  simp only [alone, advance, handleAllocateBlock]
  cases hf : n.metadata.getFile req.filePath with
  | none => exact .refl _
  | some f =>
      simp only [Option.isNone_some, Bool.false_eq_true, if_false]
      apply Leads.step
      simp only [alone, advance]
      split
      next => exact .refl _
      next =>
        apply Leads.step
        simp only [alone, advance]
        cases n.blockManager.allocateBlock (n.dnManager.getAliveDataNodes t.it) with
        | none => exact .refl _
        | some chosen =>
            have hf' : (n.metadata.addBlock chosen.1).getFile req.filePath = some f := hf
            apply Leads.step
            apply Leads.step
            simp only [alone, advance, commitBlock, hf']
            exact .step (.refl _)

/-- A request that meets no other is handled as the handler says. -/
theorem leads_handle (req : NameNodeRequest) (n : NameNode) (t : Moment) :
    Leads t (entry req, n) (.done (n.handle req t).1, (n.handle req t).2) := by
  rw [entry, handle]
  cases req.op with
  | createFile => exact .step (leads_append _)
  | allocateBlock => exact leads_allocate _
  | getFileBlocks =>
      apply Leads.step
      simp only [alone, advance, handleGetFileBlocks]
      cases n.metadata.getFile (req.getFileBlocks.getD {}).path with
      | none => exact .refl _
      | some f => exact (leads_locateBlocks f [] f.blocks).trans (.step (.refl _))
  | deleteFile =>
      apply Leads.step
      simp only [alone, advance, handleDeleteFile]
      cases n.metadata.getFile (req.deleteFile.getD {}).path with
      | none => exact leads_append _
      | some f => exact (leads_deleteBlocks _ f f.blocks n).trans (.step (leads_append _))
  | listFiles | registerDn | heartbeat => exact .step (.refl _)
  | blockReport => exact leads_reportLocation _ _ n
  | unknown => exact .refl _

/-- A path that has a file after a call had one before, or it is the one that CreateFile was called for. -/
theorem find_advance (stage : Stage) (n : NameNode) (t : Moment) (p : FilePath)
    (h : (stage.advance n t).2.metadata.files.find p ≠ none) :
    n.metadata.files.find p ≠ none ∨ stage = .createFile ⟨p⟩ := by
  cases stage with
  | createFile req =>
      simp only [advance, handleCreateFile_eq, MetadataStore.find_createFile] at h
      split at h
      next hp =>
        obtain ⟨rfl, -⟩ := hp
        exact .inr rfl
      next => exact .inl h
  | writeFile req block f =>
      simp only [advance, MetadataStore.find_updateFile] at h
      split at h
      next hp => exact .inl (hp.1 ▸ hp.2)
      next => exact .inl h
  | deleteBlocks req f rest =>
      cases rest with
      | nil =>
          simp only [advance, MetadataStore.find_deleteFile] at h
          split at h
          · exact absurd rfl h
          · exact .inl h
      | cons b rest => exact .inl h
  | reportSize id block items =>
      simp only [advance, MetadataStore.files_updateBlock] at h
      exact .inl h
  | heartbeat req =>
      simp only [advance, handleHeartbeat_eq] at h
      exact .inl h
  | checkFile req | aliveNodes req | pickBlock req alive | readFile req block | locateFile req | findDoomed req
  | reportRead id item items =>
      simp only [advance] at h
      repeat' split at h
      all_goals exact .inl h
  | locateBlocks f found rest => cases rest <;> exact .inl h
  | reportLocation id items => cases items <;> exact .inl h
  | addBlock | listFiles | registerDn | append | done => exact .inl h

theorem advance_ne_createFile (stage : Stage) (n : NameNode) (t : Moment) (req : CreateFileRequest) :
    (stage.advance n t).1 ≠ .createFile req := by
  intro h
  cases stage with
  | checkFile req | aliveNodes req | pickBlock req alive | readFile req block | locateFile req | findDoomed req
  | reportRead id item items =>
      simp only [advance] at h
      repeat' split at h
      all_goals cases h
  | locateBlocks f found rest | deleteBlocks req f rest | reportLocation id rest => cases rest <;> cases h
  | createFile | addBlock | writeFile | listFiles | registerDn | heartbeat | reportSize | append | done => cases h

end Stage

end MiniStorage.Namenode
