import MiniStorage.Namenode.Managers

namespace MiniStorage.Namenode

/-- The components that NameNodeServer and HANameNodeServer have in common. -/
structure NameNode where
  metadata : MetadataStore := {}
  blockManager : BlockManager := {}
  dnManager : DataNodeManager := {}

/-- What a handler meets outside: the clock and the order of its pass over a hash table. -/
structure Moment where
  now : Int
  it : Iteration

namespace NameNode

def failure (error : Bytes) : NameNodeResponse := { error := error }

/-! The handlers of NameNodeServer. -/

def handleCreateFile (n : NameNode) (req : CreateFileRequest) (t : Moment) : NameNodeResponse × NameNode :=
  let (created, metadata) := n.metadata.createFile req.path t.now
  if created then ({ success := true }, { n with metadata := metadata })
  else (failure (text "File already exists: " ++ req.path), { n with metadata := metadata })

/-- The block goes to the block table first, then to the end of the file's list. -/
def commitBlock (n : NameNode) (path : FilePath) (block : BlockInfo) (t : Moment) : MetadataStore :=
  let metadata := n.metadata.addBlock block
  match metadata.getFile path with
  | some f => (metadata.updateFile path { f with blocks := f.blocks ++ [block.blockId] } t.now).2
  | none => metadata

def handleAllocateBlock (n : NameNode) (req : AllocateBlockRequest) (t : Moment) : NameNodeResponse × NameNode :=
  if (n.metadata.getFile req.filePath).isNone then (failure (text "File not found: " ++ req.filePath), n)
  else
    let aliveNodes := n.dnManager.getAliveDataNodes t.it
    if aliveNodes.isEmpty then (failure (text "No available DataNode"), n)
    else
      match n.blockManager.allocateBlock aliveNodes with
      | none => (failure (text "No available DataNode to allocate block"), n)
      | some (info, blockManager) =>
          ({ success := true,
             allocateBlock := some { success := true, blockId := info.blockId, datanodeAddresses := info.locations } },
            { n with metadata := n.commitBlock req.filePath info t, blockManager := blockManager })

def blockLocation (n : NameNode) (blockId : BlockId) : BlockLocation :=
  match n.metadata.getBlock blockId with
  | some block => ⟨blockId, block.size, block.locations⟩
  | none => { blockId := blockId }

def handleGetFileBlocks (n : NameNode) (req : GetFileBlocksRequest) : NameNodeResponse :=
  match n.metadata.getFile req.path with
  | none => failure (text "File not found: " ++ req.path)
  | some f =>
      { success := true,
        getFileBlocks := some { success := true, path := f.path, size := f.size, blocks := f.blocks.map n.blockLocation } }

/-- The blocks of a file go one after the other, the file last. -/
def removeFile (n : NameNode) (path : FilePath) (f : FileInfo) : MetadataStore :=
  ((f.blocks.foldl (fun metadata bid => (metadata.deleteBlock bid).2) n.metadata).deleteFile path).2

def handleDeleteFile (n : NameNode) (req : DeleteFileRequest) : NameNodeResponse × NameNode :=
  match n.metadata.getFile req.path with
  | none => (failure (text "File not found: " ++ req.path), n)
  | some f => ({ success := true }, { n with metadata := n.removeFile req.path f })

def summary (f : FileInfo) : FileSummary := ⟨f.path, f.size, f.createTime, Int32.ofNat f.blocks.length⟩

def handleListFiles (n : NameNode) (req : ListFilesRequest) (t : Moment) : NameNodeResponse :=
  { success := true, listFiles := some ⟨true, (n.metadata.listFiles t.it req.dir).map summary⟩ }

def handleRegisterDN (n : NameNode) (req : RegisterDataNodeRequest) (t : Moment) : NameNodeResponse × NameNode :=
  let info : DataNodeInfo := { id := req.datanodeId, host := req.host, port := req.port, freeSpace := req.freeSpace }
  ({ success := true }, { n with dnManager := n.dnManager.registerDataNode info t.now })

def handleHeartbeat (n : NameNode) (req : HeartbeatRequest) (t : Moment) : NameNodeResponse × NameNode :=
  let (ok, dnManager) := n.dnManager.handleHeartbeat req.datanodeId req.freeSpace (Int32.ofInt req.blockCount) t.now
  if ok then ({ success := true }, { n with dnManager := dnManager })
  else (failure (text "DataNode not registered: " ++ req.datanodeId), { n with dnManager := dnManager })

/-- One turn of the loop in HandleBlockReport. -/
def reportBlock (datanodeId : DataNodeId) (metadata : MetadataStore) (item : BlockReportItem) : MetadataStore :=
  let metadata := metadata.updateBlockLocation item.blockId datanodeId
  match metadata.getBlock item.blockId with
  | some existing =>
      if existing.size = 0 ∧ item.size > 0 then (metadata.updateBlock { existing with size := item.size }).2 else metadata
  | none => metadata

def handleBlockReport (n : NameNode) (req : BlockReportRequest) : NameNodeResponse × NameNode :=
  ({ success := true }, { n with metadata := req.blocks.foldl (reportBlock req.datanodeId) n.metadata })

/-- The switch of ProcessRequest. -/
def handle (n : NameNode) (req : NameNodeRequest) (t : Moment) : NameNodeResponse × NameNode :=
  match req.op with
  | .createFile => n.handleCreateFile (req.createFile.getD {}) t
  | .allocateBlock => n.handleAllocateBlock (req.allocateBlock.getD {}) t
  | .getFileBlocks => (n.handleGetFileBlocks (req.getFileBlocks.getD {}), n)
  | .deleteFile => n.handleDeleteFile (req.deleteFile.getD {})
  | .listFiles => (n.handleListFiles (req.listFiles.getD {}) t, n)
  | .registerDn => n.handleRegisterDN (req.registerDn.getD {}) t
  | .heartbeat => n.handleHeartbeat (req.heartbeat.getD {}) t
  | .blockReport => n.handleBlockReport (req.blockReport.getD {})
  | .unknown _ => (failure (text "Unknown operation"), n)

/-- ProcessRequest up to the edit log: the response carries the request's id. -/
def processRequest (n : NameNode) (req : NameNodeRequest) (t : Moment) : NameNodeResponse × NameNode :=
  let (resp, n) := n.handle req t
  ({ resp with requestId := req.requestId }, n)

/-- The same map from path to block ids. -/
def SameLists (n n' : NameNode) : Prop :=
  ∀ p, (n.metadata.files.find p).map FileInfo.blocks = (n'.metadata.files.find p).map FileInfo.blocks

/-- The constructor of NameNodeServer: a fresh process, and the files that the edit log names. -/
def restarted (paths : List FilePath) (now : Int) : NameNode :=
  { metadata := paths.foldl (fun m path => (m.createFile path now).2) {} }

variable (n : NameNode)

theorem find_restarted (paths : List FilePath) (now : Int) (p : FilePath) :
    (restarted paths now).metadata.files.find p =
      if p ∈ paths then some { path := p, createTime := now, modifyTime := now } else none := by
  have hfold (m : MetadataStore)
      (hm : ∀ f, m.files.find p = some f → f = { path := p, createTime := now, modifyTime := now }) :
      (paths.foldl (fun m path => (m.createFile path now).2) m).files.find p =
        if p ∈ paths then some { path := p, createTime := now, modifyTime := now } else m.files.find p := by
    induction paths generalizing m with
    | nil => simp
    | cons path paths ih =>
        have hnew : (m.createFile path now).2.files.find p =
            if p = path then some { path := p, createTime := now, modifyTime := now } else m.files.find p := by
          rw [MetadataStore.find_createFile]
          by_cases hp : p = path
          · subst hp
            cases hf : m.files.find p with
            | none => simp
            | some f => simp [hm f hf]
          · simp [hp]
        rw [List.foldl_cons, ih, hnew]
        · by_cases hp : p = path <;> simp [hp]
        · intro f hf
          rw [hnew] at hf
          split at hf
          · exact (Option.some.inj hf).symm
          · exact hm f hf
  apply hfold {}
  intro f hf
  cases hf

theorem handleCreateFile_eq (req : CreateFileRequest) (t : Moment) :
    n.handleCreateFile req t =
      (if (n.metadata.createFile req.path t.now).1 then { success := true }
        else failure (text "File already exists: " ++ req.path),
      { n with metadata := (n.metadata.createFile req.path t.now).2 }) := by
  simp only [handleCreateFile]
  cases (n.metadata.createFile req.path t.now).1 <;> rfl

theorem handleHeartbeat_eq (req : HeartbeatRequest) (t : Moment) :
    n.handleHeartbeat req t =
      (if (n.dnManager.nodes.find req.datanodeId).isSome then { success := true }
        else failure (text "DataNode not registered: " ++ req.datanodeId),
      { n with dnManager :=
        (n.dnManager.handleHeartbeat req.datanodeId req.freeSpace (Int32.ofInt req.blockCount) t.now).2 }) := by
  have hok : (n.dnManager.handleHeartbeat req.datanodeId req.freeSpace (Int32.ofInt req.blockCount) t.now).1 =
      (n.dnManager.nodes.find req.datanodeId).isSome := by
    rw [DataNodeManager.handleHeartbeat]
    split
    next hf => rw [hf]; rfl
    next info hf => rw [hf]; rfl
  simp only [handleHeartbeat, ← hok]
  cases (n.dnManager.handleHeartbeat req.datanodeId req.freeSpace (Int32.ofInt req.blockCount) t.now).1 <;> rfl

/-- The block that an allocation would get. The check for an empty list of alive nodes only changes the error text. -/
def chosenBlock (t : Moment) : Option (BlockInfo × BlockManager) :=
  n.blockManager.allocateBlock (n.dnManager.getAliveDataNodes t.it)

/-- A DataNode that a block may go to is known. -/
def Usable : Prop :=
  ∃ id info, n.dnManager.nodes.find id = some info ∧ info.status = .alive ∧ info.freeSpace ≥ kBlockSize

theorem chosenBlock_eq_none {t : Moment} : n.chosenBlock t = none ↔ ¬ n.Usable := by
  rw [chosenBlock, BlockManager.allocateBlock_eq_none, BlockManager.usable, List.filter_eq_nil_iff]
  simp only [DataNodeManager.mem_getAliveDataNodes, decide_eq_true_eq]
  constructor
  · rintro h ⟨id, info, hi, ha, hs⟩
    exact h info ⟨⟨id, hi⟩, ha⟩ ⟨ha, hs⟩
  · rintro h info ⟨⟨id, hi⟩, -⟩ ⟨ha, hs⟩
    exact h ⟨id, info, hi, ha, hs⟩

theorem handleAllocateBlock_none {req : AllocateBlockRequest} {t : Moment}
    (h : n.metadata.files.find req.filePath = none ∨ n.chosenBlock t = none) :
    ∃ error, n.handleAllocateBlock req t = (failure error, n) := by
  rw [handleAllocateBlock, MetadataStore.getFile]
  by_cases hf : n.metadata.files.find req.filePath = none
  · exact ⟨_, if_pos (by rw [hf]; rfl)⟩
  · have hb := h.resolve_left hf
    rw [chosenBlock] at hb
    rw [if_neg (by rwa [Option.isNone_iff_eq_none])]
    simp only [hb]
    by_cases halive : (n.dnManager.getAliveDataNodes t.it).isEmpty = true
    · exact ⟨_, if_pos halive⟩
    · exact ⟨_, if_neg halive⟩

theorem alive_of_chosenBlock {t : Moment} {chosen : BlockInfo × BlockManager} (h : n.chosenBlock t = some chosen) :
    (n.dnManager.getAliveDataNodes t.it).isEmpty = false := by
  rw [Bool.eq_false_iff]
  intro hnil
  rw [chosenBlock, List.isEmpty_iff.mp hnil] at h
  cases h

theorem handleAllocateBlock_some {req : AllocateBlockRequest} {t : Moment} {f : FileInfo} {info : BlockInfo}
    {blockManager : BlockManager} (hf : n.metadata.files.find req.filePath = some f)
    (hb : n.chosenBlock t = some (info, blockManager)) :
    n.handleAllocateBlock req t =
      ({ success := true,
         allocateBlock := some { success := true, blockId := info.blockId, datanodeAddresses := info.locations } },
        { n with metadata := n.commitBlock req.filePath info t, blockManager := blockManager }) := by
  have halive := n.alive_of_chosenBlock hb
  rw [chosenBlock] at hb
  simp [handleAllocateBlock, MetadataStore.getFile, hf, halive, hb]

theorem files_commitBlock (path p : FilePath) (block : BlockInfo) (t : Moment) :
    (n.commitBlock path block t).files.find p =
      if p = path then (n.metadata.files.find path).map fun f =>
        { f with blocks := f.blocks ++ [block.blockId], modifyTime := t.now }
      else n.metadata.files.find p := by
  rw [commitBlock, MetadataStore.getFile, MetadataStore.files_addBlock]
  cases hf : n.metadata.files.find path with
  | none =>
      by_cases hp : p = path
      · simp [hp, hf]
      · simp [hp]
  | some f =>
      by_cases hp : p = path
      · simp [hp, MetadataStore.find_updateFile, hf]
      · simp [hp, MetadataStore.find_updateFile]

theorem blocks_commitBlock (path : FilePath) (block : BlockInfo) (t : Moment) (b : BlockId) :
    (n.commitBlock path block t).blocks.find b =
      if b = block.blockId then some block else n.metadata.blocks.find b := by
  rw [commitBlock, ← MetadataStore.find_addBlock]
  split
  · rw [MetadataStore.blocks_updateFile]
  · rfl

theorem files_deleteBlocks (ids : List BlockId) (m : MetadataStore) :
    (ids.foldl (fun m bid => (m.deleteBlock bid).2) m).files = m.files := by
  induction ids generalizing m with
  | nil => rfl
  | cons bid ids ih => exact ih (m.deleteBlock bid).2

theorem blocks_deleteBlocks (ids : List BlockId) (m : MetadataStore) (b : BlockId) :
    (ids.foldl (fun m bid => (m.deleteBlock bid).2) m).blocks.find b = if b ∈ ids then none else m.blocks.find b := by
  induction ids generalizing m with
  | nil => simp
  | cons bid ids ih =>
      rw [List.foldl_cons, ih, MetadataStore.find_deleteBlock]
      by_cases hb : b = bid
      · simp [hb]
      · simp [hb]

theorem files_removeFile (path p : FilePath) (f : FileInfo) :
    (n.removeFile path f).files.find p = if p = path then none else n.metadata.files.find p := by
  rw [removeFile, MetadataStore.find_deleteFile, files_deleteBlocks]

theorem blocks_removeFile (path : FilePath) (f : FileInfo) (b : BlockId) :
    (n.removeFile path f).blocks.find b = if b ∈ f.blocks then none else n.metadata.blocks.find b := by
  rw [removeFile, MetadataStore.blocks_deleteFile, blocks_deleteBlocks]

@[simp] theorem files_reportBlock (id : DataNodeId) (m : MetadataStore) (item : BlockReportItem) :
    (reportBlock id m item).files = m.files := by
  rw [reportBlock]
  split
  · split
    · rw [MetadataStore.files_updateBlock, MetadataStore.files_updateBlockLocation]
    · rfl
  · rfl

/-- A report fills in the size of its block if none is known, and touches no other block. -/
theorem blocks_reportBlock (id : DataNodeId) (m : MetadataStore) (item : BlockReportItem) (b : BlockId) :
    ∃ locations, (reportBlock id m item).blocks.find b =
      if b = item.blockId then
        let size := ((m.blocks.find item.blockId).getD {}).size
        some ⟨item.blockId, if size = 0 ∧ item.size > 0 then item.size else size, locations⟩
      else m.blocks.find b := by
  obtain ⟨locations, hl⟩ := m.find_updateBlockLocation item.blockId item.blockId id
  obtain ⟨locations', hl'⟩ := m.find_updateBlockLocation item.blockId b id
  rw [if_pos rfl] at hl
  refine ⟨locations, ?_⟩
  simp only [reportBlock, MetadataStore.getBlock, hl]
  split
  next hsize =>
    rw [MetadataStore.find_updateBlock, hl', hl]
    by_cases hb : b = item.blockId <;> simp [hb]
  next hsize =>
    by_cases hb : b = item.blockId
    · rw [hb, hl, if_pos rfl]
    · rw [hl', if_neg hb, if_neg hb]

theorem files_reportBlocks (id : DataNodeId) (items : List BlockReportItem) (m : MetadataStore) :
    (items.foldl (reportBlock id) m).files = m.files := by
  induction items generalizing m with
  | nil => rfl
  | cons item items ih => rw [List.foldl_cons, ih, files_reportBlock]

theorem blocks_reportBlocks (id : DataNodeId) (items : List BlockReportItem) (m : MetadataStore) (b : BlockId) :
    ((items.foldl (reportBlock id) m).blocks.find b).isSome ↔
      (m.blocks.find b).isSome ∨ ∃ item ∈ items, item.blockId = b := by
  induction items generalizing m with
  | nil => simp
  | cons item items ih =>
      obtain ⟨locations, hb⟩ := blocks_reportBlock id m item b
      rw [List.foldl_cons, ih, hb]
      by_cases hid : b = item.blockId
      · simp [hid]
      · simp [hid, Ne.symm hid]

/-- What a request can do to the tables and the counter. -/
inductive Change (n : NameNode) (req : NameNodeRequest) (t : Moment) : NameNode → Prop
  | same {n' : NameNode} (hmetadata : n'.metadata = n.metadata) (hmanager : n'.blockManager = n.blockManager) :
      Change n req t n'
  | create (path : FilePath) : Change n req t { n with metadata := (n.metadata.createFile path t.now).2 }
  | allocate (hop : req.op = .allocateBlock) {path : FilePath} {f : FileInfo} (hf : n.metadata.files.find path = some f)
      {block : BlockInfo} {manager : BlockManager} (hb : n.chosenBlock t = some (block, manager)) :
      Change n req t { n with metadata := n.commitBlock path block t, blockManager := manager }
  | delete {path : FilePath} {f : FileInfo} (hf : n.metadata.files.find path = some f) :
      Change n req t { n with metadata := n.removeFile path f }
  | report (hop : req.op = .blockReport) : Change n req t { n with
      metadata := (req.blockReport.getD {}).blocks.foldl (reportBlock (req.blockReport.getD {}).datanodeId) n.metadata }

theorem handle_change (req : NameNodeRequest) (t : Moment) : Change n req t (n.handle req t).2 := by
  rw [handle]
  cases hop : req.op with
  | createFile =>
      simp only [handleCreateFile_eq]
      exact .create _
  | allocateBlock =>
      cases hf : n.metadata.files.find (req.allocateBlock.getD {}).filePath with
      | none =>
          obtain ⟨error, he⟩ := n.handleAllocateBlock_none (t := t) (.inl hf)
          simp only [he]
          exact .same rfl rfl
      | some f =>
          cases hb : n.chosenBlock t with
          | none =>
              obtain ⟨error, he⟩ := @handleAllocateBlock_none n (req.allocateBlock.getD {}) t (.inr hb)
              simp only [he]
              exact .same rfl rfl
          | some chosen =>
              simp only [n.handleAllocateBlock_some hf hb]
              exact .allocate hop hf hb
  | deleteFile =>
      simp only [handleDeleteFile]
      split
      next => exact .same rfl rfl
      next f hf => exact .delete hf
  | heartbeat =>
      simp only [handleHeartbeat_eq]
      exact .same rfl rfl
  | blockReport => exact .report hop
  | getFileBlocks | listFiles | registerDn | unknown => exact .same rfl rfl

section Keyed

variable {n}

theorem keyed_commitBlock (h : n.metadata.Keyed) (path : FilePath) (block : BlockInfo) (t : Moment) :
    (n.commitBlock path block t).Keyed := by
  rw [commitBlock, MetadataStore.getFile, MetadataStore.files_addBlock]
  split
  next f hf =>
    have hp : ({ f with blocks := f.blocks ++ [block.blockId] } : FileInfo).path = path := h.files path f hf
    exact (h.addBlock block).updateFile hp t.now
  next => exact h.addBlock block

theorem keyed_removeFile (h : n.metadata.Keyed) (path : FilePath) (f : FileInfo) : (n.removeFile path f).Keyed := by
  have hblocks (ids : List BlockId) {m : MetadataStore} (hm : m.Keyed) :
      (ids.foldl (fun m bid => (m.deleteBlock bid).2) m).Keyed := by
    induction ids generalizing m with
    | nil => exact hm
    | cons bid ids ih => exact ih (hm.deleteBlock bid)
  exact (hblocks f.blocks h).deleteFile path

theorem keyed_reportBlocks {m : MetadataStore} (h : m.Keyed) (id : DataNodeId) (items : List BlockReportItem) :
    (items.foldl (reportBlock id) m).Keyed := by
  induction items generalizing m with
  | nil => exact h
  | cons item items ih =>
      apply ih
      rw [reportBlock]
      have hl := h.updateBlockLocation item.blockId id
      split
      · split
        · exact hl.updateBlock _
        · exact hl
      · exact hl

theorem keyed_handle (h : n.metadata.Keyed) (req : NameNodeRequest) (t : Moment) :
    (n.handle req t).2.metadata.Keyed := by
  have hc := n.handle_change req t
  generalize (n.handle req t).2 = n' at hc ⊢
  cases hc with
  | same hmetadata => rw [hmetadata]; exact h
  | create path => exact h.createFile path t.now
  | allocate => exact keyed_commitBlock h _ _ _
  | delete => exact keyed_removeFile h _ _
  | report => exact keyed_reportBlocks h _ _

end Keyed

end NameNode

/-! A DataNode with room for a block, a file, and a block for it. -/

def registerD : NameNodeRequest :=
  { op := .registerDn, registerDn := some { datanodeId := text "d", freeSpace := 4194304 } }

def createA : NameNodeRequest := { createFile := some ⟨text "/a"⟩ }

def allocateA : NameNodeRequest := { op := .allocateBlock, allocateBlock := some ⟨text "/a"⟩ }

end MiniStorage.Namenode
