import MiniStorage.Namenode.NameNode
import MiniStorage.Namenode.Snapshot
import MiniStorage.Raft.Node

namespace MiniStorage.Namenode

namespace NameNode

/-! The apply handlers of HANameNodeServer. -/

def applyCreateFile (n : NameNode) (req : CreateFileRequest) (t : Moment) : NameNode :=
  { n with metadata := (n.metadata.createFile req.path t.now).2 }

def applyDeleteFile (n : NameNode) (req : DeleteFileRequest) : NameNode :=
  match n.metadata.getFile req.path with
  | none => n
  | some f => { n with metadata := n.removeFile req.path f }

/-- The block comes along that the call gave to the file. -/
def applyAllocateBlock (n : NameNode) (req : AllocateBlockRequest) (t : Moment) : Option BlockInfo × NameNode :=
  match n.metadata.getFile req.filePath with
  | none => (none, n)
  | some f =>
      let aliveNodes := n.dnManager.getAliveDataNodes t.it
      if aliveNodes.isEmpty then (none, n)
      else
        match n.blockManager.allocateBlock aliveNodes with
        | none => (none, n)
        | some (block, blockManager) =>
            let metadata := n.metadata.addBlock block
            let f := { f with blocks := f.blocks ++ [block.blockId] }
            (some block,
              { n with metadata := (metadata.updateFile req.filePath f t.now).2, blockManager := blockManager })

theorem applyAllocateBlock_none {n : NameNode} {req : AllocateBlockRequest} {t : Moment}
    (h : n.metadata.files.find req.filePath = none ∨ n.chosenBlock t = none) :
    n.applyAllocateBlock req t = (none, n) := by
  rw [applyAllocateBlock, MetadataStore.getFile]
  cases hf : n.metadata.files.find req.filePath with
  | none => rfl
  | some f =>
      have hb := h.resolve_left (by simp [hf])
      rw [chosenBlock] at hb
      simp only [hb, ite_self]

theorem applyAllocateBlock_some {n : NameNode} {req : AllocateBlockRequest} {t : Moment} {f : FileInfo}
    {block : BlockInfo} {blockManager : BlockManager} (hf : n.metadata.files.find req.filePath = some f)
    (hb : n.chosenBlock t = some (block, blockManager)) :
    n.applyAllocateBlock req t =
      (some block, { n with metadata := n.commitBlock req.filePath block t, blockManager := blockManager }) := by
  have halive := n.alive_of_chosenBlock hb
  rw [chosenBlock] at hb
  simp [applyAllocateBlock, commitBlock, MetadataStore.getFile, hf, halive, hb]

/-- The switch of OnApplyCommitted. -/
def apply (n : NameNode) (req : NameNodeRequest) (t : Moment) : Option BlockInfo × NameNode :=
  match req.op with
  | .createFile => (none, n.applyCreateFile (req.createFile.getD {}) t)
  | .deleteFile => (none, n.applyDeleteFile (req.deleteFile.getD {}))
  | .allocateBlock => n.applyAllocateBlock (req.allocateBlock.getD {}) t
  | _ => (none, n)

theorem apply_blockReport {n : NameNode} {req : NameNodeRequest} (hop : req.op = .blockReport) (t : Moment) :
    n.apply req t = (none, n) := by
  rw [apply, hop]

theorem apply_change (n : NameNode) (req : NameNodeRequest) (t : Moment) : Change n req t (n.apply req t).2 := by
  rw [apply]
  cases hop : req.op with
  | createFile => exact .create _
  | deleteFile =>
      simp only [applyDeleteFile]
      split
      next => exact .same rfl rfl
      next f hf => exact .delete hf
  | allocateBlock =>
      cases hf : n.metadata.files.find (req.allocateBlock.getD {}).filePath with
      | none =>
          simp only [applyAllocateBlock_none (t := t) (.inl hf)]
          exact .same rfl rfl
      | some f =>
          cases hb : n.chosenBlock t with
          | none =>
              simp only [@applyAllocateBlock_none n (req.allocateBlock.getD {}) t (.inr hb)]
              exact .same rfl rfl
          | some chosen =>
              simp only [applyAllocateBlock_some hf hb]
              exact .allocate hop hf hb
  | getFileBlocks | listFiles | registerDn | heartbeat | blockReport | unknown => exact .same rfl rfl

def onApplyCommitted (w : Wire NameNodeRequest) (n : NameNode) (command : Bytes) (t : Moment) :
    Option BlockInfo × NameNode :=
  match w.parse command with
  | none => (none, n)
  | some req => n.apply req t

/-- The end of ProposeWrite: what the tables say once the command is committed. -/
def writeResponse (n : NameNode) (req : NameNodeRequest) : NameNodeResponse :=
  match req.op with
  | .createFile =>
      let path := (req.createFile.getD {}).path
      if (n.metadata.getFile path).isSome then { success := true } else failure (text "Failed to create file: " ++ path)
  | .deleteFile =>
      let path := (req.deleteFile.getD {}).path
      if (n.metadata.getFile path).isSome then failure (text "Failed to delete file: " ++ path) else { success := true }
  | .allocateBlock =>
      match (n.metadata.getFile (req.allocateBlock.getD {}).filePath).bind fun f => f.blocks.getLast? with
      | some lastBid =>
          { success := true,
            allocateBlock := some {
              success := true,
              blockId := lastBid,
              datanodeAddresses := ((n.metadata.getBlock lastBid).map BlockInfo.locations).getD [] } }
      | none => failure (text "Block allocation failed")
  | _ => failure (text "Unknown write operation")

def isWrite (req : NameNodeRequest) : Bool := req.op = .createFile ∨ req.op = .deleteFile ∨ req.op = .allocateBlock

end NameNode

structure HANameNodeServer where
  core : NameNode := {}
  raft : Raft.RaftNode := {}

namespace HANameNodeServer

/-- apply_cb_ for what `raft` has applied beyond the server's own node. -/
def catchUp (w : Wire NameNodeRequest) (s : HANameNodeServer) (raft : Raft.RaftNode) (t : Moment) : HANameNodeServer :=
  { core := (Raft.applyCalls (raft.upper.drop s.raft.upper.length)).foldl
      (fun n call => (n.onApplyCommitted w call.2 t).2) s.core
    raft := raft }

/-- ProposeWrite while nothing else runs. Nothing arrives during the wait in Propose, so what is not
committed when the wait begins is not committed at its end. -/
def proposeWrite (w : Wire NameNodeRequest) (cfg : Raft.RaftConfig) (s : HANameNodeServer) (req : NameNodeRequest)
    (t : Moment) : NameNodeResponse × HANameNodeServer :=
  if s.raft.state ≠ .leader then (NameNode.failure (text "Not leader. Leader: " ++ s.raft.leaderId), s)
  else
    match w.serialize req with
    | none => (NameNode.failure (text "Failed to serialize command"), s)
    | some command =>
        let (raft, entry) := s.raft.propose cfg command
        let raft := (raft.advanceCommitIndex cfg).sendHeartbeats cfg
        let s := s.catchUp w raft t
        if entry.index ≤ raft.commitIndex then (s.core.writeResponse req, s)
        else (NameNode.failure (text "Request timed out (not committed)"), s)

/-- The handlers that do not go through Raft are those of NameNodeServer, word for word. -/
def processClientRequest (w : Wire NameNodeRequest) (cfg : Raft.RaftConfig) (s : HANameNodeServer)
    (req : NameNodeRequest) (t : Moment) : NameNodeResponse × HANameNodeServer :=
  let (resp, s) :=
    if NameNode.isWrite req then s.proposeWrite w cfg req t
    else ((s.core.handle req t).1, { s with core := (s.core.handle req t).2 })
  ({ resp with requestId := req.requestId }, s)

/-- The only member of its cluster, after its first election. -/
def alone (id : Bytes) : HANameNodeServer :=
  let cfg : Raft.RaftConfig := ⟨id, [id]⟩
  { raft := ((Raft.RaftNode.start none none).becomeCandidate cfg).becomeLeader cfg }

end HANameNodeServer

/-- Three requests in the bytes protobuf gives them. -/
def requestWire : Wire NameNodeRequest := .table [
  (registerD, [0x08, 0x05, 0x7a, 0x08, 0x0a, 0x01, 0x64, 0x20, 0x80, 0x80, 0x80, 0x02]),
  (createA, [0x52, 0x04, 0x0a, 0x02, 0x2f, 0x61]),
  (allocateA, [0x08, 0x01, 0x5a, 0x04, 0x0a, 0x02, 0x2f, 0x61])]

end MiniStorage.Namenode
