import MiniStorage.Namenode.HaServer
import MiniStorage.Raft.Spec

namespace MiniStorage.Namenode

open Raft

/-- An entry right behind the commit index that has its majority is committed and applied. -/
theorem advanceCommitIndex_next {cfg : RaftConfig} {n : RaftNode} {e : LogEntry}
    (happlied : n.lastApplied = n.commitIndex) (hback : (back n.log).index = n.commitIndex + 1)
    (hget : n.getLogEntry (n.commitIndex + 1) = some e) (hcommits : n.commits cfg (n.commitIndex + 1) = true) :
    n.advanceCommitIndex cfg = { n with
      commitIndex := n.commitIndex + 1
      lastApplied := n.commitIndex + 1
      upper := n.upper ++ [.applied (n.commitIndex + 1) (some e)] } := by
  rw [RaftNode.getLogEntry] at hget
  rw [RaftNode.advanceCommitIndex, hback, RaftNode.advanceFrom, if_neg (Nat.not_succ_le_self _), if_pos hcommits,
    RaftNode.applyCommitted_eq]
  simp only [happlied, Nat.add_sub_cancel_left, List.range'_one, List.map_cons, List.map_nil,
    Nat.max_eq_right (Nat.le_succ _), RaftNode.getLogEntry, hget]

/-- The leader of a cluster of one, between two requests. -/
structure Idle (r : RaftNode) : Prop where
  state : r.state = .leader
  numbered : r.log.map LogEntry.index = List.range r.log.length
  applied : r.lastApplied = r.commitIndex
  commit : r.commitIndex + 1 = r.log.length

theorem Idle.back_index {r : RaftNode} (h : Idle r) : (back r.log).index = r.commitIndex := by
  have hlast : (r.log.map LogEntry.index).getLast? = (List.range (r.commitIndex + 1)).getLast? := by
    rw [h.numbered, h.commit]
  rw [List.range_succ, List.getLast?_append, List.getLast?_map] at hlast
  cases hl : r.log.getLast? with
  | none => simp [hl] at hlast
  | some e =>
      rw [hl] at hlast
      rw [back, List.getLastD_eq_getLast?, hl]
      exact Option.some.inj hlast

theorem Idle.propose {r : RaftNode} (h : Idle r) (id command : Bytes) :
    let entry := (r.propose ⟨id, [id]⟩ command).2
    let r' := ((r.propose ⟨id, [id]⟩ command).1.advanceCommitIndex ⟨id, [id]⟩).sendHeartbeats ⟨id, [id]⟩
    Idle r' ∧ entry.index = r'.commitIndex ∧ entry.command = command ∧
      r'.upper = r.upper ++ [.applied entry.index (some entry)] := by
  intro entry r'
  have hentry : entry = ⟨r.currentTerm, r.commitIndex + 1, command⟩ := by rw [← h.back_index]; rfl
  have hmajority : (⟨id, [id]⟩ : RaftConfig).majority = 1 := by simp [RaftConfig.majority]
  have hlow : ∀ e ∈ r.log, e.index < r.commitIndex + 1 := by
    intro e he
    have hmem : e.index ∈ r.log.map LogEntry.index := List.mem_map_of_mem he
    rw [h.numbered, List.mem_range] at hmem
    exact hmem.trans_eq h.commit.symm
  have hget : (r.propose ⟨id, [id]⟩ command).1.getLogEntry (r.commitIndex + 1) = some entry := by
    have hold : r.log.find? (fun e => e.index = r.commitIndex + 1) = none := by
      apply List.find?_eq_none.mpr
      intro e he
      simpa using (hlow e he).ne
    have hlog : (r.propose ⟨id, [id]⟩ command).1.log = r.log ++ [entry] := rfl
    rw [RaftNode.getLogEntry, hlog, List.find?_append, hold, hentry]
    simp
  have hcommits : (r.propose ⟨id, [id]⟩ command).1.commits ⟨id, [id]⟩ (r.commitIndex + 1) = true := by
    rw [RaftNode.commits, hget, hmajority, hentry]
    simp [RaftNode.replicas, RaftNode.propose, RaftNode.persistState]
  have hback : (back (r.propose ⟨id, [id]⟩ command).1.log).index = r.commitIndex + 1 := by
    have hlog : (r.propose ⟨id, [id]⟩ command).1.log = r.log ++ [entry] := rfl
    rw [hlog, back, List.getLastD_concat, hentry]
  have hadvance := @advanceCommitIndex_next ⟨id, [id]⟩ (r.propose ⟨id, [id]⟩ command).1 _ h.applied
    hback hget hcommits
  have hr' : r' = { (r.propose ⟨id, [id]⟩ command).1 with
      commitIndex := r.commitIndex + 1
      lastApplied := r.commitIndex + 1
      sending := (⟨id, [id]⟩ : RaftConfig).others
      upper := r.upper ++ [.applied entry.index (some entry)] } := by
    have hstate : (r.propose ⟨id, [id]⟩ command).1.state = .leader := h.state
    change (RaftNode.advanceCommitIndex _ _).sendHeartbeats _ = _
    rw [hadvance, RaftNode.sendHeartbeats, if_pos hstate, hentry]
    rfl
  rw [hr', hentry]
  refine ⟨⟨h.state, ?_, rfl, ?_⟩, rfl, rfl, rfl⟩
  · change (r.log ++ [entry]).map LogEntry.index = List.range (r.log ++ [entry]).length
    rw [List.map_append, h.numbered, List.length_append, List.length_singleton, List.range_succ, hentry, ← h.commit]
    rfl
  · change r.commitIndex + 1 + 1 = (r.log ++ [entry]).length
    rw [List.length_append, h.commit]
    rfl

theorem idle_alone (id : Bytes) : Idle (HANameNodeServer.alone id).raft := ⟨rfl, rfl, rfl, rfl⟩

theorem applyCalls_one (i : Nat) (e : LogEntry) :
    applyCalls [.applied i (some e)] = if e.command = [] then [] else [(i, e.command)] := by
  by_cases hc : e.command = [] <;> simp [applyCalls, hc]

theorem Idle.proposeWrite {w : Wire NameNodeRequest} {s : HANameNodeServer} {req : NameNodeRequest} {command : Bytes}
    (h : Idle s.raft) (id : Bytes) (t : Moment) (hser : w.serialize req = some command)
    (hparse : w.parse command = some req) :
    let core := if command = [] then s.core else (s.core.apply req t).2
    ∃ r', Idle r' ∧ s.proposeWrite w ⟨id, [id]⟩ req t = (core.writeResponse req, ⟨core, r'⟩) := by
  intro core
  obtain ⟨hidle, hcommit, hcommand, hupper⟩ := h.propose id command
  refine ⟨_, hidle, ?_⟩
  have hcatch : s.catchUp w (((s.raft.propose ⟨id, [id]⟩ command).1.advanceCommitIndex ⟨id, [id]⟩).sendHeartbeats
      ⟨id, [id]⟩) t = ⟨core, ((s.raft.propose ⟨id, [id]⟩ command).1.advanceCommitIndex ⟨id, [id]⟩).sendHeartbeats
      ⟨id, [id]⟩⟩ := by
    rw [HANameNodeServer.catchUp, hupper, List.drop_left, applyCalls_one, hcommand]
    by_cases hc : command = []
    · simp only [core, if_pos hc, List.foldl_nil]
    · simp only [core, if_neg hc, List.foldl_cons, List.foldl_nil, NameNode.onApplyCommitted, hparse]
  rw [HANameNodeServer.proposeWrite, if_neg (by simp [h.state]), hser]
  simp only [hcatch, hcommit, le_refl, if_true]

/-! Two servers read the clock at their own times and pass over their tables in their own orders. -/

def FileInfo.timeless (f : FileInfo) : FileInfo := { f with createTime := 0, modifyTime := 0 }

def BlockInfo.placeless (block : BlockInfo) : BlockInfo := { block with locations := [] }

def DataNodeInfo.timeless (info : DataNodeInfo) : DataNodeInfo := { info with lastHeartbeat := 0 }

/-- The same but for the times of the files and the locations of the blocks. -/
structure MetadataStore.Alike (m m' : MetadataStore) : Prop where
  files : ∀ p, (m.files.find p).map FileInfo.timeless = (m'.files.find p).map FileInfo.timeless
  blocks : ∀ b, (m.blocks.find b).map BlockInfo.placeless = (m'.blocks.find b).map BlockInfo.placeless

/-- The same but for what the clock and the hash order decide. -/
structure NameNode.Alike (n n' : NameNode) : Prop where
  metadata : n.metadata.Alike n'.metadata
  nextBlockId : n.blockManager.nextBlockId = n'.blockManager.nextBlockId
  nodes : ∀ id, (n.dnManager.nodes.find id).map DataNodeInfo.timeless =
    (n'.dnManager.nodes.find id).map DataNodeInfo.timeless

namespace MetadataStore.Alike

variable {m m' : MetadataStore}

theorem isSome_file (h : m.Alike m') (p : FilePath) : (m.files.find p).isSome = (m'.files.find p).isSome := by
  have hp := congrArg Option.isSome (h.files p)
  rwa [Option.isSome_map, Option.isSome_map] at hp

theorem file_eq_none (h : m.Alike m') (p : FilePath) : m.files.find p = none ↔ m'.files.find p = none := by
  rw [← Option.isNone_iff_eq_none, ← Option.isNone_iff_eq_none, ← Option.not_isSome, ← Option.not_isSome,
    h.isSome_file p]

theorem file (h : m.Alike m') {p : FilePath} {f : FileInfo} (hf : m.files.find p = some f) :
    ∃ f', m'.files.find p = some f' ∧ f'.timeless = f.timeless := by
  have hp := h.files p
  rw [hf, eq_comm, Option.map_some, Option.map_eq_some_iff] at hp
  exact hp

theorem createFile (h : m.Alike m') (path : FilePath) (now now' : Int) :
    (m.createFile path now).2.Alike (m'.createFile path now').2 := by
  constructor
  · intro p
    simp only [find_createFile, h.file_eq_none path]
    split
    · rfl
    · exact h.files p
  · intro b
    rw [blocks_createFile, blocks_createFile]
    exact h.blocks b

theorem reportBlock (h : m.Alike m') (id : DataNodeId) (item : BlockReportItem) :
    (NameNode.reportBlock id m item).Alike (NameNode.reportBlock id m' item) := by
  constructor
  · intro p
    rw [NameNode.files_reportBlock, NameNode.files_reportBlock]
    exact h.files p
  · intro b
    obtain ⟨locations, hb⟩ := NameNode.blocks_reportBlock id m item b
    obtain ⟨locations', hb'⟩ := NameNode.blocks_reportBlock id m' item b
    have hsize : ((m.blocks.find item.blockId).getD {}).size = ((m'.blocks.find item.blockId).getD {}).size := by
      have hi := h.blocks item.blockId
      cases hm : m.blocks.find item.blockId with
      | none =>
          rw [hm, eq_comm, Option.map_none, Option.map_eq_none_iff] at hi
          rw [hi]
      | some block =>
          rw [hm, eq_comm, Option.map_some, Option.map_eq_some_iff] at hi
          obtain ⟨block', hm', he⟩ := hi
          rw [hm']
          exact (congrArg BlockInfo.size he).symm
    rw [hb, hb', hsize]
    split
    · rfl
    · exact h.blocks b

theorem reportBlocks (h : m.Alike m') (id : DataNodeId) (items : List BlockReportItem) :
    (items.foldl (NameNode.reportBlock id) m).Alike (items.foldl (NameNode.reportBlock id) m') := by
  induction items generalizing m m' with
  | nil => exact h
  | cons item items ih => exact ih (h.reportBlock id item)

end MetadataStore.Alike

namespace NameNode.Alike

variable {n n' : NameNode}

theorem commitBlock (h : n.Alike n') (path : FilePath) {block block' : BlockInfo}
    (hb : block.placeless = block'.placeless) (t t' : Moment) :
    (n.commitBlock path block t).Alike (n'.commitBlock path block' t') := by
  have hid : block.placeless.blockId = block'.placeless.blockId := congrArg BlockInfo.blockId hb
  change block.blockId = block'.blockId at hid
  constructor
  · intro p
    rw [files_commitBlock, files_commitBlock, hid]
    split
    · have hp := congrArg (Option.map fun f : FileInfo => { f with blocks := f.blocks ++ [block'.blockId] })
        (h.metadata.files path)
      rw [Option.map_map, Option.map_map] at hp ⊢
      exact hp
    · exact h.metadata.files p
  · intro b
    rw [blocks_commitBlock, blocks_commitBlock, hid]
    split
    · exact congrArg some hb
    · exact h.metadata.blocks b

theorem removeFile (h : n.Alike n') (path : FilePath) {f f' : FileInfo} (hf : f'.timeless = f.timeless) :
    (n.removeFile path f).Alike (n'.removeFile path f') := by
  have hblocks : f'.timeless.blocks = f.timeless.blocks := congrArg FileInfo.blocks hf
  change f'.blocks = f.blocks at hblocks
  constructor
  · intro p
    rw [files_removeFile, files_removeFile]
    split
    · rfl
    · exact h.metadata.files p
  · intro b
    rw [blocks_removeFile, blocks_removeFile, hblocks]
    split
    · rfl
    · exact h.metadata.blocks b

theorem registerDataNode (h : n.Alike n') (info : DataNodeInfo) (now now' : Int) (id : DataNodeId) :
    ((n.dnManager.registerDataNode info now).nodes.find id).map DataNodeInfo.timeless =
      ((n'.dnManager.registerDataNode info now').nodes.find id).map DataNodeInfo.timeless := by
  rw [DataNodeManager.registerDataNode, DataNodeManager.registerDataNode, SortedMap.find_insert, SortedMap.find_insert]
  split
  · rfl
  · exact h.nodes id

theorem node (h : n.Alike n') {id : DataNodeId} {info : DataNodeInfo} (hi : n.dnManager.nodes.find id = some info) :
    ∃ info', n'.dnManager.nodes.find id = some info' ∧ info'.timeless = info.timeless := by
  have hn := h.nodes id
  rw [hi, eq_comm, Option.map_some, Option.map_eq_some_iff] at hn
  exact hn

theorem isSome_node (h : n.Alike n') (id : DataNodeId) :
    (n.dnManager.nodes.find id).isSome = (n'.dnManager.nodes.find id).isSome := by
  have hn := congrArg Option.isSome (h.nodes id)
  rwa [Option.isSome_map, Option.isSome_map] at hn

theorem handleHeartbeat (h : n.Alike n') (id : DataNodeId) (freeSpace : Int) (blockCount : Int32) (now now' : Int)
    (k : DataNodeId) :
    ((n.dnManager.handleHeartbeat id freeSpace blockCount now).2.nodes.find k).map DataNodeInfo.timeless =
      ((n'.dnManager.handleHeartbeat id freeSpace blockCount now').2.nodes.find k).map DataNodeInfo.timeless := by
  cases hi : n.dnManager.nodes.find id with
  | none =>
      have hi' : n'.dnManager.nodes.find id = none := by
        rw [← Option.not_isSome_iff_eq_none, ← h.isSome_node id, hi]
        simp
      simp only [DataNodeManager.handleHeartbeat, hi, hi']
      exact h.nodes k
  | some info =>
      obtain ⟨info', hi', he⟩ := h.node hi
      simp only [DataNodeManager.handleHeartbeat, hi, hi', SortedMap.find_insert]
      split
      · have hid : info'.timeless.id = info.timeless.id := congrArg DataNodeInfo.id he
        have hhost : info'.timeless.host = info.timeless.host := congrArg DataNodeInfo.host he
        have hport : info'.timeless.port = info.timeless.port := congrArg DataNodeInfo.port he
        simp only [DataNodeInfo.timeless] at hid hhost hport
        simp [DataNodeInfo.timeless, hid, hhost, hport]
      · exact h.nodes k

theorem symm (h : n.Alike n') : n'.Alike n :=
  ⟨⟨fun p => (h.metadata.files p).symm, fun b => (h.metadata.blocks b).symm⟩, h.nextBlockId.symm,
    fun id => (h.nodes id).symm⟩

theorem usable (h : n.Alike n') (hu : n.Usable) : n'.Usable := by
  obtain ⟨id, info, hi, ha, hs⟩ := hu
  obtain ⟨info', hi', he⟩ := h.node hi
  have hstatus : info'.timeless.status = info.timeless.status := congrArg DataNodeInfo.status he
  have hspace : info'.timeless.freeSpace = info.timeless.freeSpace := congrArg DataNodeInfo.freeSpace he
  exact ⟨id, info', hi', hstatus.trans ha, hspace ▸ hs⟩

end NameNode.Alike

namespace NameNodeResponse

def allocated (r : NameNodeResponse) : Option (Bool × BlockId) := r.allocateBlock.map fun a => (a.success, a.blockId)

def located (r : NameNodeResponse) : Option (Bool × FilePath × Int × List (BlockId × Int)) :=
  r.getFileBlocks.map fun g => (g.success, g.path, g.size, g.blocks.map fun b => (b.blockId, b.size))

/-- The files listed, without their times. -/
def listing (r : NameNodeResponse) : List (FilePath × Int × Int32) :=
  (r.listFiles.getD {}).files.map fun f => (f.path, f.size, f.blockCount)

/-- The same but for times, error texts, locations and the order of a listing. -/
structure Alike (r r' : NameNodeResponse) : Prop where
  success : r.success = r'.success
  allocated : r.allocated = r'.allocated
  located : r.located = r'.located
  listed : r.listFiles.map ListFilesResponse.success = r'.listFiles.map ListFilesResponse.success
  listing : r.listing.Perm r'.listing

theorem alike_failure (e e' : Bytes) : (NameNode.failure e).Alike (NameNode.failure e') :=
  ⟨rfl, rfl, rfl, rfl, .refl _⟩

theorem alike_stamp {r r' : NameNodeResponse} (id : UInt64) :
    NameNodeResponse.Alike { r with requestId := id } { r' with requestId := id } ↔ r.Alike r' :=
  ⟨fun h => ⟨h.success, h.allocated, h.located, h.listed, h.listing⟩,
    fun h => ⟨h.success, h.allocated, h.located, h.listed, h.listing⟩⟩

theorem Alike.refl (r : NameNodeResponse) : r.Alike r := ⟨rfl, rfl, rfl, rfl, .refl _⟩

end NameNodeResponse

section Steps

variable {n core : NameNode} {req : NameNodeRequest}

/-- The request on which the two servers answer alike, by the state of NameNodeServer before it. -/
def Fits (w : Wire NameNodeRequest) (n : NameNode) (req : NameNodeRequest) : Prop :=
  match req.op with
  | .createFile => n.metadata.files.find (req.createFile.getD {}).path = none ∧ w.serialize req ≠ some []
  | .deleteFile => n.metadata.files.find (req.deleteFile.getD {}).path ≠ none
  | .allocateBlock => ∀ f, n.metadata.files.find (req.allocateBlock.getD {}).filePath = some f →
      f.blocks = [] ∨ n.Usable
  | _ => True

theorem createFile_step (h : n.Alike core) (hop : req.op = .createFile) (t t' : Moment) (applied : Prop)
    [Decidable applied] :
    let core' := if applied then (core.apply req t').2 else core
    ((n.handle req t).1.Alike (core'.writeResponse req) ↔
      n.metadata.files.find (req.createFile.getD {}).path = none ∧ applied) ∧
      (n.metadata.files.find (req.createFile.getD {}).path = none ∧ applied → (n.handle req t).2.Alike core') := by
  intro core'
  have hnone := h.metadata.file_eq_none (req.createFile.getD {}).path
  have hhandle : n.handle req t = n.handleCreateFile (req.createFile.getD {}) t := by rw [NameNode.handle, hop]
  have happly : core.apply req t' = (none, core.applyCreateFile (req.createFile.getD {}) t') := by
    rw [NameNode.apply, hop]
  have hwrite : (core'.writeResponse req).success = (core'.metadata.getFile (req.createFile.getD {}).path).isSome := by
    simp only [NameNode.writeResponse, hop]
    by_cases hs : (core'.metadata.getFile (req.createFile.getD {}).path).isSome = true
    · rw [if_pos hs, hs]
    · rw [if_neg hs, Bool.eq_false_iff.mpr hs]
      rfl
  rw [hhandle, NameNode.handleCreateFile_eq]
  cases hf : n.metadata.files.find (req.createFile.getD {}).path with
  | some f =>
      have hsome : (core.metadata.files.find (req.createFile.getD {}).path).isSome := by
        rw [← h.metadata.isSome_file, hf]
        rfl
      have hcore' : (core'.metadata.files.find (req.createFile.getD {}).path).isSome := by
        simp only [core', happly, NameNode.applyCreateFile]
        split
        · rw [MetadataStore.find_createFile, if_neg (by simpa [Option.isSome_iff_ne_none] using hsome)]
          exact hsome
        · exact hsome
      refine ⟨⟨?_, by simp⟩, by simp⟩
      intro ha
      have hs := ha.success
      rw [hwrite, MetadataStore.getFile, hcore'] at hs
      simp [MetadataStore.createFile, hf, NameNode.failure] at hs
  | none =>
      have hcreated : (n.metadata.createFile (req.createFile.getD {}).path t.now).1 = true := by
        simp [MetadataStore.createFile, hf]
      rw [hcreated, if_pos rfl]
      by_cases happ : applied
      · have hcore' : core' = core.applyCreateFile (req.createFile.getD {}) t' := by simp [core', happ, happly]
        refine ⟨⟨fun _ => ⟨rfl, happ⟩, fun _ => ?_⟩, fun _ => ?_⟩
        · have hsome : (core'.metadata.files.find (req.createFile.getD {}).path).isSome := by
            rw [hcore', NameNode.applyCreateFile, MetadataStore.find_createFile, if_pos ⟨rfl, hnone.mp hf⟩]
            rfl
          have hresp : core'.writeResponse req = { success := true } := by
            simp only [NameNode.writeResponse, hop, MetadataStore.getFile, hsome, if_true]
          rw [hresp]
          exact .refl _
        · rw [hcore']
          exact ⟨h.metadata.createFile _ _ _, h.nextBlockId, h.nodes⟩
      · have hcore' : core' = core := by simp [core', happ]
        refine ⟨⟨?_, fun ha => absurd ha.2 happ⟩, fun ha => absurd ha.2 happ⟩
        intro ha
        have hs := ha.success
        rw [hwrite, hcore', MetadataStore.getFile, hnone.mp hf] at hs
        cases hs

theorem deleteFile_step (h : n.Alike core) (hop : req.op = .deleteFile) (t t' : Moment) :
    ((n.handle req t).1.Alike ((core.apply req t').2.writeResponse req) ↔
      n.metadata.files.find (req.deleteFile.getD {}).path ≠ none) ∧
      (n.handle req t).2.Alike (core.apply req t').2 := by
  have hhandle : n.handle req t = n.handleDeleteFile (req.deleteFile.getD {}) := by rw [NameNode.handle, hop]
  have happly : (core.apply req t').2 = core.applyDeleteFile (req.deleteFile.getD {}) := by rw [NameNode.apply, hop]
  have hgone : (core.applyDeleteFile (req.deleteFile.getD {})).metadata.files.find (req.deleteFile.getD {}).path =
    none := by
    simp only [NameNode.applyDeleteFile, MetadataStore.getFile]
    split
    next hf => exact hf
    next f hf => rw [NameNode.files_removeFile, if_pos rfl]
  have hwrite : (core.applyDeleteFile (req.deleteFile.getD {})).writeResponse req = { success := true } := by
    simp only [NameNode.writeResponse, hop, MetadataStore.getFile, hgone]
    rfl
  rw [hhandle, happly, hwrite]
  simp only [NameNode.handleDeleteFile, NameNode.applyDeleteFile, MetadataStore.getFile]
  cases hf : n.metadata.files.find (req.deleteFile.getD {}).path with
  | none =>
      rw [(h.metadata.file_eq_none _).mp hf]
      refine ⟨⟨?_, fun hne => absurd rfl hne⟩, h⟩
      intro ha
      cases ha.success
  | some f =>
      obtain ⟨f', hf', he⟩ := h.metadata.file hf
      rw [hf']
      exact ⟨⟨fun _ => by simp, fun _ => .refl _⟩, h.removeFile _ he, h.nextBlockId, h.nodes⟩

theorem allocateBlock_step (h : n.Alike core) (hop : req.op = .allocateBlock) (t t' : Moment) :
    ((n.handle req t).1.Alike ((core.apply req t').2.writeResponse req) ↔
      ∀ f, n.metadata.files.find (req.allocateBlock.getD {}).filePath = some f → f.blocks = [] ∨ n.Usable) ∧
      (n.handle req t).2.Alike (core.apply req t').2 := by
  have hhandle : n.handle req t = n.handleAllocateBlock (req.allocateBlock.getD {}) t := by rw [NameNode.handle, hop]
  have happly : core.apply req t' = core.applyAllocateBlock (req.allocateBlock.getD {}) t' := by
    rw [NameNode.apply, hop]
  rw [hhandle, happly]
  cases hf : n.metadata.files.find (req.allocateBlock.getD {}).filePath with
  | none =>
      have hf' := (h.metadata.file_eq_none _).mp hf
      obtain ⟨error, he⟩ := n.handleAllocateBlock_none (t := t) (.inl hf)
      rw [he, NameNode.applyAllocateBlock_none (.inl hf')]
      refine ⟨⟨fun _ f hf => (by cases hf), fun _ => ?_⟩, h⟩
      simp only [NameNode.writeResponse, hop, MetadataStore.getFile, hf', Option.bind_none]
      exact NameNodeResponse.alike_failure _ _
  | some f =>
      obtain ⟨f', hf', htime⟩ := h.metadata.file hf
      have hblocks : f'.timeless.blocks = f.timeless.blocks := congrArg FileInfo.blocks htime
      change f'.blocks = f.blocks at hblocks
      by_cases hu : n.Usable
      · obtain ⟨⟨block, manager⟩, hb⟩ := Option.ne_none_iff_exists'.mp
          (fun hnone => n.chosenBlock_eq_none.mp hnone hu : n.chosenBlock t ≠ none)
        obtain ⟨⟨block', manager'⟩, hb'⟩ := Option.ne_none_iff_exists'.mp
          (fun hnone => core.chosenBlock_eq_none.mp hnone (h.usable hu) : core.chosenBlock t' ≠ none)
        obtain ⟨-, hid, hsize, hnext, -⟩ := BlockManager.allocateBlock_some hb
        obtain ⟨-, hid', hsize', hnext', -⟩ := BlockManager.allocateBlock_some hb'
        have hplaceless : block.placeless = block'.placeless := by
          rw [BlockInfo.placeless, BlockInfo.placeless, hid, hid', hsize, hsize', h.nextBlockId]
        rw [n.handleAllocateBlock_some hf hb, NameNode.applyAllocateBlock_some hf' hb']
        refine ⟨⟨fun _ _ _ => .inr hu, fun _ => ?_⟩, h.commitBlock _ hplaceless t t', ?_, h.nodes⟩
        · have hlast : ((core.commitBlock (req.allocateBlock.getD {}).filePath block' t').files.find
              (req.allocateBlock.getD {}).filePath).bind (fun f => f.blocks.getLast?) = some block'.blockId := by
            rw [NameNode.files_commitBlock, if_pos rfl, hf']
            simp
          simp only [NameNode.writeResponse, hop, MetadataStore.getFile, hlast]
          refine ⟨rfl, ?_, rfl, rfl, .refl _⟩
          simp only [NameNodeResponse.allocated, Option.map_some, hid, hid', h.nextBlockId]
        · rw [hnext, hnext', h.nextBlockId]
      · have hu' : ¬ core.Usable := fun hc => hu (h.symm.usable hc)
        obtain ⟨error, he⟩ := @NameNode.handleAllocateBlock_none n (req.allocateBlock.getD {}) t
          (.inr (n.chosenBlock_eq_none (t := t).mpr hu))
        rw [he, NameNode.applyAllocateBlock_none (.inr (core.chosenBlock_eq_none.mpr hu'))]
        refine ⟨?_, h⟩
        simp only [NameNode.writeResponse, hop, MetadataStore.getFile, hf', Option.bind_some, hblocks]
        cases hl : f.blocks.getLast? with
        | none =>
            refine ⟨fun _ g hg => .inl ?_, fun _ => NameNodeResponse.alike_failure _ _⟩
            rw [← Option.some.inj hg]
            exact List.getLast?_eq_none_iff.mp hl
        | some last =>
            constructor
            · intro ha
              cases ha.success
            · intro hfit
              rcases hfit f rfl with hnil | hc
              · rw [hnil] at hl
                cases hl
              · exact absurd hc hu

theorem getFileBlocks_alike (h : n.Alike core) (q : GetFileBlocksRequest) :
    (n.handleGetFileBlocks q).Alike (core.handleGetFileBlocks q) := by
  simp only [NameNode.handleGetFileBlocks, MetadataStore.getFile]
  cases hf : n.metadata.files.find q.path with
  | none =>
      rw [(h.metadata.file_eq_none _).mp hf]
      exact .refl _
  | some f =>
      obtain ⟨f', hf', he⟩ := h.metadata.file hf
      have hpath : f'.timeless.path = f.timeless.path := congrArg FileInfo.path he
      have hsize : f'.timeless.size = f.timeless.size := congrArg FileInfo.size he
      have hblocks : f'.timeless.blocks = f.timeless.blocks := congrArg FileInfo.blocks he
      simp only [FileInfo.timeless] at hpath hsize hblocks
      have hloc (b : BlockId) : ((n.blockLocation b).blockId, (n.blockLocation b).size) =
          ((core.blockLocation b).blockId, (core.blockLocation b).size) := by
        have hb := h.metadata.blocks b
        simp only [NameNode.blockLocation, MetadataStore.getBlock]
        cases hn : n.metadata.blocks.find b with
        | none =>
            rw [hn, eq_comm, Option.map_none, Option.map_eq_none_iff] at hb
            rw [hb]
        | some block =>
            rw [hn, eq_comm, Option.map_some, Option.map_eq_some_iff] at hb
            obtain ⟨block', hc, hp⟩ := hb
            have hs : block'.placeless.size = block.placeless.size := congrArg BlockInfo.size hp
            rw [hc]
            exact congrArg (Prod.mk b) hs.symm
      rw [hf']
      refine ⟨rfl, rfl, ?_, rfl, .refl _⟩
      simp only [NameNodeResponse.located, Option.map_some, hpath, hsize, hblocks, List.map_map]
      congr 4
      apply List.map_congr_left
      intro b hb
      exact hloc b

theorem listFiles_alike (h : n.Alike core) (q : ListFilesRequest) (t t' : Moment) :
    (n.handleListFiles q t).Alike (core.handleListFiles q t') := by
  refine ⟨rfl, rfl, rfl, rfl, ?_⟩
  let row (p : FilePath × FileInfo) : FilePath × Int × Int32 := (p.2.path, p.2.size, Int32.ofNat p.2.blocks.length)
  have hrows (it : Iteration) (m : MetadataStore) :
      (((m.listFiles it q.dir).map NameNode.summary).map fun f => (f.path, f.size, f.blockCount)).Perm
        (((m.files.mapVal FileInfo.timeless).entries.filter fun p => q.dir.isPrefixOf p.1).map row) := by
    rw [MetadataStore.listFiles, List.map_map, List.map_map, SortedMap.mapVal, List.filter_map, List.map_map]
    exact ((it.perm _).filter _).map _
  have hfiles : n.metadata.files.mapVal FileInfo.timeless = core.metadata.files.mapVal FileInfo.timeless := by
    apply SortedMap.ext_find
    intro p
    rw [SortedMap.find_mapVal, SortedMap.find_mapVal]
    exact h.metadata.files p
  have hn := hrows t.it n.metadata
  rw [hfiles] at hn
  exact hn.trans (hrows t'.it core.metadata).symm

theorem read_step (h : n.Alike core) (hop : NameNode.isWrite req = false) (t t' : Moment) :
    (n.handle req t).1.Alike (core.handle req t').1 ∧ (n.handle req t).2.Alike (core.handle req t').2 := by
  simp only [NameNode.handle]
  cases hreq : req.op with
  | createFile | allocateBlock | deleteFile => simp [NameNode.isWrite, hreq] at hop
  | getFileBlocks => exact ⟨getFileBlocks_alike h _, h⟩
  | listFiles => exact ⟨listFiles_alike h _ t t', h⟩
  | registerDn => exact ⟨.refl _, h.metadata, h.nextBlockId, h.registerDataNode _ t.now t'.now⟩
  | heartbeat =>
      simp only [NameNode.handleHeartbeat_eq, h.isSome_node]
      exact ⟨.refl _, h.metadata, h.nextBlockId, h.handleHeartbeat _ _ _ t.now t'.now⟩
  | blockReport => exact ⟨.refl _, h.metadata.reportBlocks _ _, h.nextBlockId, h.nodes⟩
  | unknown => exact ⟨.refl _, h⟩

/-- The two servers between two requests. -/
structure Paired (n : NameNode) (s : HANameNodeServer) : Prop where
  core : n.Alike s.core
  idle : Idle s.raft

theorem request_step {w : Wire NameNodeRequest} {s : HANameNodeServer} (h : Paired n s) (id : Bytes) (t t' : Moment)
    (hw : w.RoundTrips req) (hempty : ∀ r, w.serialize r = some [] → r = {}) :
    ((n.processRequest req t).1.Alike (s.processClientRequest w ⟨id, [id]⟩ req t').1 ↔ Fits w n req) ∧
      (Fits w n req → Paired (n.processRequest req t).2 (s.processClientRequest w ⟨id, [id]⟩ req t').2) := by
  simp only [NameNode.processRequest, HANameNodeServer.processClientRequest, NameNodeResponse.alike_stamp]
  cases hwrite : NameNode.isWrite req with
  | false =>
      obtain ⟨hr, hs⟩ := read_step h.core hwrite t t'
      have hfits : Fits w n req := by
        rw [Fits]
        cases hop : req.op with
        | createFile | allocateBlock | deleteFile => simp [NameNode.isWrite, hop] at hwrite
        | _ => trivial
      exact ⟨⟨fun _ => hfits, fun _ => hr⟩, fun _ => ⟨hs, h.idle⟩⟩
  | true =>
      obtain ⟨command, hser, hparse⟩ := hw
      obtain ⟨r', hidle, heq⟩ := h.idle.proposeWrite id t' hser hparse
      simp only [if_true, heq]
      have hne (hop : req.op ≠ .createFile) : command ≠ [] := by
        rintro rfl
        rw [hempty req hser] at hop
        exact hop rfl
      cases hop : req.op with
      | createFile =>
          obtain ⟨hr, hs⟩ := createFile_step h.core hop t t' (command ≠ [])
          have hfits : Fits w n req ↔
              n.metadata.files.find (req.createFile.getD {}).path = none ∧ command ≠ [] := by
            rw [Fits, hop]
            simp [hser]
          simp only [ite_not] at hr hs
          rw [hfits]
          exact ⟨hr, fun hf => ⟨hs hf, hidle⟩⟩
      | deleteFile =>
          obtain ⟨hr, hs⟩ := deleteFile_step h.core hop t t'
          have hfits : Fits w n req ↔ n.metadata.files.find (req.deleteFile.getD {}).path ≠ none := by rw [Fits, hop]
          rw [hfits]
          simp only [if_neg (hne (by simp [hop]))]
          exact ⟨hr, fun _ => ⟨hs, hidle⟩⟩
      | allocateBlock =>
          obtain ⟨hr, hs⟩ := allocateBlock_step h.core hop t t'
          have hfits : Fits w n req ↔ ∀ f, n.metadata.files.find (req.allocateBlock.getD {}).filePath = some f →
              f.blocks = [] ∨ n.Usable := by rw [Fits, hop]
          rw [hfits]
          simp only [if_neg (hne (by simp [hop]))]
          exact ⟨hr, fun _ => ⟨hs, hidle⟩⟩
      | getFileBlocks | listFiles | registerDn | heartbeat | blockReport | unknown =>
          simp [NameNode.isWrite, hop] at hwrite

end Steps

/-- What a server answers to requests that it handles one after the other, each at its moment. -/
def responses {S : Type} (process : S → NameNodeRequest → Moment → NameNodeResponse × S) :
    S → List (NameNodeRequest × Moment) → List NameNodeResponse
  | _, [] => []
  | s, (req, t) :: rest => (process s req t).1 :: responses process (process s req t).2 rest

/-- Every request fits the state in which it meets NameNodeServer. -/
def AllFit (w : Wire NameNodeRequest) : NameNode → List (NameNodeRequest × Moment) → Prop
  | _, [] => True
  | n, (req, t) :: rest => Fits w n req ∧ AllFit w (n.processRequest req t).2 rest

theorem paired_alone (id : Bytes) : Paired {} (HANameNodeServer.alone id) :=
  ⟨⟨⟨fun _ => rfl, fun _ => rfl⟩, rfl, fun _ => rfl⟩, idle_alone id⟩

theorem responses_alike_iff {w : Wire NameNodeRequest} {n : NameNode} {s : HANameNodeServer} (h : Paired n s)
    (id : Bytes) (hempty : ∀ r, w.serialize r = some [] → r = {}) (events : List (NameNodeRequest × Moment × Moment))
    (hw : ∀ e ∈ events, w.RoundTrips e.1) :
    List.Forall₂ NameNodeResponse.Alike
      (responses NameNode.processRequest n (events.map fun e => (e.1, e.2.1)))
      (responses (fun s req t => s.processClientRequest w ⟨id, [id]⟩ req t) s (events.map fun e => (e.1, e.2.2))) ↔
      AllFit w n (events.map fun e => (e.1, e.2.1)) := by
  induction events generalizing n s with
  | nil => exact ⟨fun _ => trivial, fun _ => .nil⟩
  | cons e events ih =>
      obtain ⟨hr, hs⟩ := request_step h id e.2.1 e.2.2 (hw e List.mem_cons_self) hempty
      have hrest := fun hfits => ih (hs hfits) (fun e he => hw e (List.mem_cons_of_mem _ he))
      simp only [List.map_cons, responses, AllFit, List.forall₂_cons, hr]
      constructor
      · rintro ⟨hf, hall⟩
        exact ⟨hf, (hrest hf).mp hall⟩
      · rintro ⟨hf, hall⟩
        exact ⟨hf, (hrest hf).mpr hall⟩

/-- A cluster of one that was just elected answers as NameNodeServer does, exactly as long as no file is
created twice, none is deleted that is not there, and no block is asked for a file with blocks while no
DataNode is usable. -/
theorem ha_answers_like_plain_iff (w : Wire NameNodeRequest) (id : Bytes)
    (events : List (NameNodeRequest × Moment × Moment)) (hw : ∀ e ∈ events, w.RoundTrips e.1)
    (hempty : ∀ r, w.serialize r = some [] → r = {}) :
    List.Forall₂ NameNodeResponse.Alike
      (responses NameNode.processRequest {} (events.map fun e => (e.1, e.2.1)))
      (responses (fun s req t => s.processClientRequest w ⟨id, [id]⟩ req t) (HANameNodeServer.alone id)
        (events.map fun e => (e.1, e.2.2))) ↔
      AllFit w {} (events.map fun e => (e.1, e.2.1)) :=
  responses_alike_iff (paired_alone id) id hempty events hw

theorem requestWire_roundTrips {req : NameNodeRequest} (h : req = registerD ∨ req = createA ∨ req = allocateA) :
    requestWire.RoundTrips req := by
  rcases h with rfl | rfl | rfl <;> exact ⟨_, rfl, rfl⟩

theorem requestWire_empty (r : NameNodeRequest) (h : requestWire.serialize r = some []) : r = {} := by
  simp only [requestWire, Wire.table, Option.map_eq_some_iff] at h
  obtain ⟨row, hrow, hdata⟩ := h
  have hmem := List.mem_of_find?_eq_some hrow
  simp only [List.mem_cons, List.not_mem_nil, or_false] at hmem
  rcases hmem with rfl | rfl | rfl <;> cases hdata

theorem ha_answers_like_plain_one_block :
    List.Forall₂ NameNodeResponse.Alike
      (responses NameNode.processRequest {} ([registerD, createA, allocateA].map fun r => (r, ⟨1, .sorted⟩)))
      (responses (fun s req t => s.processClientRequest requestWire ⟨[0], [[0]]⟩ req t) (HANameNodeServer.alone [0])
        ([registerD, createA, allocateA].map fun r => (r, ⟨2, .sorted⟩))) := by
  refine (ha_answers_like_plain_iff requestWire [0]
    ([registerD, createA, allocateA].map fun r => (r, ⟨1, .sorted⟩, ⟨2, .sorted⟩)) ?_ requestWire_empty).mpr
    ⟨trivial, ⟨rfl, by decide⟩, ?_, trivial⟩
  · intro e he
    obtain ⟨r, hr, rfl⟩ := List.mem_map.mp he
    apply requestWire_roundTrips
    simpa using hr
  · intro f hf
    obtain rfl := Option.some.inj hf
    exact .inl rfl

/-- The second time, the plain server finds the file there and the other one finds it created. -/
theorem ha_answers_unlike_plain_created_twice :
    ¬ List.Forall₂ NameNodeResponse.Alike
      (responses NameNode.processRequest {} ([createA, createA].map fun r => (r, ⟨1, .sorted⟩)))
      (responses (fun s req t => s.processClientRequest requestWire ⟨[0], [[0]]⟩ req t) (HANameNodeServer.alone [0])
        ([createA, createA].map fun r => (r, ⟨2, .sorted⟩))) := by
  intro h
  have hfit := (responses_alike_iff (paired_alone [0]) [0] requestWire_empty
    ([createA, createA].map fun r => (r, ⟨1, .sorted⟩, ⟨2, .sorted⟩)) (fun e he => by
      obtain ⟨r, hr, rfl⟩ := List.mem_map.mp he
      exact requestWire_roundTrips (.inr (.inl (by simpa using hr))))).mp h
  have htwice := hfit.2.1.1
  revert htwice
  decide

end MiniStorage.Namenode
