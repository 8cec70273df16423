import MiniStorage.Datanode.Pipeline
import MiniStorage.Namenode.NameNode
import MiniStorage.Runs

namespace MiniStorage.Namenode

open Datanode Runs

/-- How far a DataNodeClient is: it has no thread, it has registered, its heartbeat thread runs. -/
inductive ClientStage
  | stopped
  | registered
  | beating
deriving DecidableEq, Repr

/-- A NameNode and the DataNodes around it. `enrolled` and `reported` are what has registered and what has been reported
since the NameNode started. -/
structure Fleet (N : Type*) where
  node : NameNode := {}
  stores : N → BlockStore
  stages : N → ClientStage := fun _ => .stopped
  enrolled : List DataNodeId := []
  reported : List (DataNodeId × BlockReportItem) := []

/-- A DataNode registers, reports its blocks, sends a heartbeat or ends, or its blocks change; somebody sends the
NameNode a request; the NameNode checks the heartbeats or is started again. -/
inductive FleetAction (N : Type*)
  | registerSelf (i : N) (freeSpace : Int) (hop : Hop) (t : Moment)
  | sendBlockReport (i : N) (it : Iteration) (hop : Hop) (t : Moment)
  | sendHeartbeat (i : N) (freeSpace : Int) (it : Iteration) (hop : Hop) (t : Moment)
  | stop (i : N)
  | store (i : N) (s : BlockStore)
  | request (req : NameNodeRequest) (t : Moment)
  | checkHealth (now : Int)
  | restart (paths : List FilePath) (now : Int)

/-- A DataNode registers, or somebody does it in its name. -/
def FleetAction.registers {N : Type*} : FleetAction N → Bool
  | .registerSelf _ _ _ _ => true
  | .request req _ => req.op = .registerDn
  | _ => false

/-- The DataNodes that a request registers. -/
def NameNodeRequest.enrolls (req : NameNodeRequest) : List DataNodeId :=
  if req.op = .registerDn then [(req.registerDn.getD {}).datanodeId] else []

def NameNodeRequest.reports (req : NameNodeRequest) : List (DataNodeId × BlockReportItem) :=
  if req.op = .blockReport then
    (req.blockReport.getD {}).blocks.map fun item => ((req.blockReport.getD {}).datanodeId, item)
  else []

namespace Fleet

/-- The request of RegisterSelf; nothing where stoi throws. -/
def registerRequest (id : DataNodeId) (freeSpace : Int) : Option NameNodeRequest :=
  match splitAddress id with
  | none => some { op := .registerDn, requestId := 1, registerDn := some { datanodeId := id, freeSpace } }
  | some (host, portText) => (stoi portText).map fun port =>
      { op := .registerDn, requestId := 1, registerDn := some { datanodeId := id, host, port, freeSpace } }

def blockReportRequest (id : DataNodeId) (blocks : List BlockMeta) : NameNodeRequest :=
  { op := .blockReport, requestId := 2,
    blockReport := some { datanodeId := id, blocks := blocks.map fun block => ⟨block.blockId, block.size⟩ } }

def heartbeatRequest (id : DataNodeId) (freeSpace : Int) (blocks : List BlockMeta) : NameNodeRequest :=
  { op := .heartbeat, requestId := 3,
    heartbeat := some { datanodeId := id, freeSpace, blockCount := (Int32.ofNat blocks.length).toInt } }

section

variable {N : Type*} [DecidableEq N] (ids : N → DataNodeId)

/-- The NameNode processes a request. -/
def serve (s : Fleet N) (req : NameNodeRequest) (t : Moment) : NameNodeResponse × Fleet N :=
  let (resp, node) := s.node.processRequest req t
  (resp, { s with node, enrolled := s.enrolled ++ req.enrolls, reported := s.reported ++ req.reports })

/-- SendToNameNode: the response if one comes back. -/
def sendToNameNode (s : Fleet N) (hop : Hop) (req : NameNodeRequest) (t : Moment) : Option NameNodeResponse × Fleet N :=
  match hop with
  | .refused | .lost => (none, s)
  | .unanswered => (none, (s.serve req t).2)
  | .answered =>
      let (resp, s) := s.serve req t
      (some resp, s)

def setStage (s : Fleet N) (i : N) (stage : ClientStage) : Fleet N :=
  { s with stages := Function.update s.stages i stage }

/-- Start up to the registration. Where it fails there are no heartbeats, and nothing is tried again. -/
def registerSelf (s : Fleet N) (i : N) (freeSpace : Int) (hop : Hop) (t : Moment) : Fleet N :=
  match registerRequest (ids i) freeSpace with
  | none => s
  | some req =>
      let (resp, s) := s.sendToNameNode hop req t
      if resp.any (·.success) then s.setStage i .registered else s

/-- The heartbeat thread starts whatever becomes of the report. -/
def sendBlockReport (s : Fleet N) (i : N) (it : Iteration) (hop : Hop) (t : Moment) : Bool × Fleet N :=
  let (resp, s) := s.sendToNameNode hop (blockReportRequest (ids i) ((s.stores i).listAllBlocks it)) t
  (resp.any (·.success), s.setStage i .beating)

/-- A heartbeat that fails is only printed. -/
def sendHeartbeat (s : Fleet N) (i : N) (freeSpace : Int) (it : Iteration) (hop : Hop) (t : Moment) : Bool × Fleet N :=
  let (resp, s) := s.sendToNameNode hop (heartbeatRequest (ids i) freeSpace ((s.stores i).listAllBlocks it)) t
  (resp.any (·.success), s)

/-- The NameNode process with the files that its edit log names. -/
def restart (s : Fleet N) (paths : List FilePath) (now : Int) : Fleet N :=
  { s with node := NameNode.restarted paths now, enrolled := [], reported := [] }

def step (s : Fleet N) : FleetAction N → Option (Fleet N)
  | .registerSelf i freeSpace hop t =>
      if s.stages i = .stopped then some (s.registerSelf ids i freeSpace hop t) else none
  | .sendBlockReport i it hop t => if s.stages i = .registered then some (s.sendBlockReport ids i it hop t).2 else none
  | .sendHeartbeat i freeSpace it hop t =>
      if s.stages i = .beating then some (s.sendHeartbeat ids i freeSpace it hop t).2 else none
  | .stop i => some (s.setStage i .stopped)
  | .store i store => some { s with stores := Function.update s.stores i store }
  | .request req t => some (s.serve req t).2
  | .checkHealth now => some { s with node := { s.node with dnManager := s.node.dnManager.checkDataNodeHealth now } }
  | .restart paths now => some (s.restart paths now)

end

end Fleet

/-! What the NameNode can know of its DataNodes. -/

theorem DataNodeManager.mem_handleHeartbeat (m : DataNodeManager) (id : DataNodeId) (freeSpace : Int)
    (blockCount : Int32)
    (now : Int) (id' : DataNodeId) :
    (m.handleHeartbeat id freeSpace blockCount now).2.nodes.find id' ≠ none ↔ m.nodes.find id' ≠ none := by
  rw [handleHeartbeat]
  cases hid : m.nodes.find id with
  | none => exact Iff.rfl
  | some info =>
      simp only [SortedMap.find_insert]
      split
      next he =>
        rw [he, hid]
        exact iff_of_true (Option.some_ne_none _) (Option.some_ne_none _)
      next => exact Iff.rfl

theorem DataNodeManager.mem_checkDataNodeHealth (m : DataNodeManager) (now : Int) (id : DataNodeId) :
    (m.checkDataNodeHealth now).nodes.find id ≠ none ↔ m.nodes.find id ≠ none := by
  rw [checkDataNodeHealth, SortedMap.find_mapVal, Ne, Option.map_eq_none_iff]

/-- The DataNodes that are chosen for a block are among those on offer. -/
theorem BlockManager.mem_locations {m m' : BlockManager} {nodes : List DataNodeInfo} {block : BlockInfo}
    (h : m.allocateBlock nodes = some (block, m')) {d : DataNodeId} (hd : d ∈ block.locations) :
    ∃ info ∈ nodes, info.id = d := by
  rw [allocateBlock] at h
  split at h
  next => cases h
  next =>
    obtain ⟨rfl, -⟩ := Prod.mk.inj (Option.some.inj h)
    obtain ⟨i, -, hi⟩ := List.mem_filterMap.mp hd
    obtain ⟨info, hinfo, hid⟩ := Option.map_eq_some_iff.mp hi
    exact ⟨info, List.mem_of_mem_filter (List.mem_of_getElem? hinfo), hid⟩

namespace NameNode

variable (n : NameNode) (req : NameNodeRequest) (t : Moment)

/-- Only a registration makes a DataNode known. -/
theorem known_handle (h : n.dnManager.Keyed) :
    (n.handle req t).2.dnManager.Keyed ∧ ∀ id, (n.handle req t).2.dnManager.nodes.find id ≠ none ↔
      n.dnManager.nodes.find id ≠ none ∨ id ∈ req.enrolls := by
  have hsame (m : DataNodeManager) (hm : m = n.dnManager) (hop : req.op ≠ .registerDn) :
      m.Keyed ∧ ∀ id, m.nodes.find id ≠ none ↔ n.dnManager.nodes.find id ≠ none ∨ id ∈ req.enrolls := by
    rw [hm, NameNodeRequest.enrolls, if_neg hop]
    exact ⟨h, fun id => (or_iff_left List.not_mem_nil).symm⟩
  rw [handle]
  cases hop : req.op with
  | registerDn =>
      refine ⟨h.registerDataNode _ t.now, fun id => ?_⟩
      simp only [handleRegisterDN, DataNodeManager.registerDataNode, SortedMap.find_insert, NameNodeRequest.enrolls,
        hop,
        if_true, List.mem_singleton]
      by_cases hid : id = (req.registerDn.getD {}).datanodeId
      · simp [hid]
      · simp [hid]
  | heartbeat =>
      simp only [handleHeartbeat_eq]
      refine ⟨h.handleHeartbeat _ _ _ _, fun id => ?_⟩
      rw [DataNodeManager.mem_handleHeartbeat]
      exact (hsame _ rfl (by simp [hop])).2 id
  | createFile =>
      simp only [handleCreateFile_eq]
      exact hsame _ rfl (by simp [hop])
  | allocateBlock =>
      refine hsame _ ?_ (by simp [hop])
      cases hf : n.metadata.files.find (req.allocateBlock.getD {}).filePath with
      | none =>
          obtain ⟨error, he⟩ := n.handleAllocateBlock_none (t := t) (.inl hf)
          simp only [he]
      | some f =>
          cases hb : n.chosenBlock t with
          | none =>
              obtain ⟨error, he⟩ := @handleAllocateBlock_none n (req.allocateBlock.getD {}) t (.inr hb)
              simp only [he]
          | some chosen => simp only [n.handleAllocateBlock_some hf hb]
  | deleteFile =>
      refine hsame _ ?_ (by simp [hop])
      simp only [handleDeleteFile]
      split <;> rfl
  | blockReport | getFileBlocks | listFiles | unknown => exact hsame _ rfl (by simp [hop])

end NameNode

/-- What the metadata has of a block comes from a report of it or, for a location, from a registration. -/
def MetadataStore.Backed (enrolled : List DataNodeId) (reported : List (DataNodeId × BlockReportItem))
    (m : MetadataStore) :
    Prop :=
  ∀ b block, m.blocks.find b = some block →
    (block.size = 0 ∨ ∃ r ∈ reported, r.2.blockId = b ∧ r.2.size = block.size) ∧
      ∀ d ∈ block.locations, d ∈ enrolled ∨ ∃ r ∈ reported, r.2.blockId = b ∧ r.1 = d

namespace MetadataStore.Backed

variable {enrolled enrolled' : List DataNodeId} {reported reported' : List (DataNodeId × BlockReportItem)}
  {m m' : MetadataStore}

theorem of_blocks (h : m.Backed enrolled reported)
    (hblocks : ∀ b block, m'.blocks.find b = some block → m.blocks.find b = some block) : m'.Backed enrolled reported :=
  fun b block hblock => h b block (hblocks b block hblock)

theorem mono (h : m.Backed enrolled reported) (henrolled : enrolled ⊆ enrolled') (hreported : reported ⊆ reported') :
    m.Backed enrolled' reported' := by
  intro b block hblock
  obtain ⟨hsize, hlocations⟩ := h b block hblock
  refine ⟨hsize.imp_right fun ⟨r, hr, hrest⟩ => ⟨r, hreported hr, hrest⟩, fun d hd => ?_⟩
  exact (hlocations d hd).imp (henrolled ·) fun ⟨r, hr, hrest⟩ => ⟨r, hreported hr, hrest⟩

theorem commitBlock {n : NameNode} (h : n.metadata.Backed enrolled reported) {path : FilePath} {block : BlockInfo}
    {t : Moment} (hsize : block.size = 0) (hlocations : ∀ d ∈ block.locations, d ∈ enrolled) :
    (n.commitBlock path block t).Backed enrolled reported := by
  intro b block' hfind
  rw [NameNode.blocks_commitBlock] at hfind
  split at hfind
  next =>
    obtain rfl := Option.some.inj hfind
    exact ⟨.inl hsize, fun d hd => .inl (hlocations d hd)⟩
  next => exact h b block' hfind

theorem reportBlock (h : m.Backed enrolled reported) {id : DataNodeId} {item : BlockReportItem}
    (hr : (id, item) ∈ reported) : (NameNode.reportBlock id m item).Backed enrolled reported := by
  have hlocated : (m.updateBlockLocation item.blockId id).Backed enrolled reported := by
    intro b block hfind
    rw [updateBlockLocation, SortedMap.find_insert] at hfind
    split at hfind
    next hb =>
      subst hb
      have hold : ((m.blocks.find item.blockId).getD {}).size = 0 ∨
          ∃ r ∈ reported, r.2.blockId = item.blockId ∧ r.2.size = ((m.blocks.find item.blockId).getD {}).size := by
        cases hblock : m.blocks.find item.blockId with
        | none => exact .inl rfl
        | some old => exact (h _ old hblock).1
      have hlocations : ∀ d ∈ ((m.blocks.find item.blockId).getD {}).locations,
          d ∈ enrolled ∨ ∃ r ∈ reported, r.2.blockId = item.blockId ∧ r.1 = d := by
        cases hblock : m.blocks.find item.blockId with
        | none => exact fun d hd => absurd hd List.not_mem_nil
        | some old => exact (h _ old hblock).2
      obtain rfl := Option.some.inj hfind
      split
      next => exact ⟨hold, hlocations⟩
      next =>
        refine ⟨hold, fun d hd => ?_⟩
        rcases List.mem_append.mp hd with hd | hd
        · exact hlocations d hd
        · exact .inr ⟨(id, item), hr, rfl, (List.mem_singleton.mp hd).symm⟩
    next => exact h b block hfind
  rw [NameNode.reportBlock]
  split
  next existing hexisting =>
    split
    next =>
      intro b block hfind
      rw [find_updateBlock] at hfind
      split at hfind
      next hb =>
        obtain ⟨locations, hsame⟩ := m.find_updateBlockLocation item.blockId item.blockId id
        rw [if_pos rfl] at hsame
        have hid : existing.blockId = item.blockId := by
          rw [getBlock, hsame] at hexisting
          rw [← Option.some.inj hexisting]
        obtain rfl : b = item.blockId := hb.1.trans hid
        obtain rfl := Option.some.inj hfind
        exact ⟨.inr ⟨(id, item), hr, rfl, rfl⟩, (hlocated _ existing hexisting).2⟩
      next => exact hlocated b block hfind
    next => exact hlocated
  next => exact hlocated

theorem reportBlocks (h : m.Backed enrolled reported) {id : DataNodeId} {items : List BlockReportItem}
    (hr : ∀ item ∈ items, (id, item) ∈ reported) :
    (items.foldl (NameNode.reportBlock id) m).Backed enrolled reported := by
  induction items generalizing m with
  | nil => exact h
  | cons item items ih =>
      obtain ⟨hfirst, hrest⟩ := List.forall_mem_cons.mp hr
      exact ih (h.reportBlock hfirst) hrest

end MetadataStore.Backed

theorem NameNode.blocks_restarted (paths : List FilePath) (now : Int) :
    (NameNode.restarted paths now).metadata.blocks = .empty := by
  have hfold : ∀ m : MetadataStore, (paths.foldl (fun m path => (m.createFile path now).2) m).blocks = m.blocks := by
    induction paths with
    | nil => exact fun m => rfl
    | cons path paths ih => exact fun m => (ih _).trans (m.blocks_createFile path now)
  exact hfold {}

namespace Fleet

variable {N : Type*} [DecidableEq N] {ids : N → DataNodeId} {s s' : Fleet N} {a : FleetAction N}
  {as : List (FleetAction N)}

/-- Everything the NameNode knows has been sent to it since it started. -/
structure Grounded (s : Fleet N) : Prop where
  keyed : s.node.dnManager.Keyed
  table : ∀ id, s.node.dnManager.nodes.find id ≠ none ↔ id ∈ s.enrolled
  backed : s.node.metadata.Backed s.enrolled s.reported

omit [DecidableEq N] in
theorem Grounded.serve (h : Grounded s) (req : NameNodeRequest) (t : Moment) : Grounded (s.serve req t).2 := by
  obtain ⟨hkeyed, hknown⟩ := s.node.known_handle req t h.keyed
  have henrolled : s.enrolled ⊆ s.enrolled ++ req.enrolls := List.subset_append_left _ _
  have hreported : s.reported ⊆ s.reported ++ req.reports := List.subset_append_left _ _
  have hbacked : (s.node.handle req t).2.metadata.Backed (s.enrolled ++ req.enrolls) (s.reported ++ req.reports) := by
    have hchange := s.node.handle_change req t
    generalize s.node.handle req t = r at hchange
    obtain ⟨resp, n'⟩ := r
    have hold := h.backed.mono henrolled hreported
    cases hchange with
    | same hmetadata => rwa [hmetadata]
    | create path => exact hold.of_blocks fun b block hb => by rwa [MetadataStore.blocks_createFile] at hb
    | allocate hop hf hb =>
        refine hold.commitBlock (BlockManager.allocateBlock_some hb).2.2.1 fun d hd => List.mem_append_left _ ?_
        obtain ⟨info, hinfo, rfl⟩ := BlockManager.mem_locations hb hd
        obtain ⟨⟨id, hid⟩, -⟩ := DataNodeManager.mem_getAliveDataNodes.mp hinfo
        rw [h.keyed id info hid, ← h.table, hid]
        exact Option.some_ne_none info
    | delete hf =>
        refine hold.of_blocks fun b block hb => ?_
        rw [NameNode.blocks_removeFile] at hb
        split at hb
        next => cases hb
        next => exact hb
    | report hop =>
        refine hold.reportBlocks fun item hitem => List.mem_append_right _ ?_
        rw [NameNodeRequest.reports, if_pos hop]
        exact List.mem_map_of_mem hitem
  exact ⟨hkeyed, fun id => (hknown id).trans (by rw [h.table]; exact List.mem_append.symm), hbacked⟩

omit [DecidableEq N] in
theorem Grounded.sendToNameNode (h : Grounded s) (hop : Hop) (req : NameNodeRequest) (t : Moment) :
    Grounded (s.sendToNameNode hop req t).2 := by
  cases hop with
  | refused | lost => exact h
  | unanswered | answered => exact h.serve req t

omit [DecidableEq N] in
theorem grounded_restart (s : Fleet N) (paths : List FilePath) (now : Int) : Grounded (s.restart paths now) where
  keyed := DataNodeManager.keyed_empty
  table _ := iff_of_false (fun h => h rfl) List.not_mem_nil
  backed b block h := by
    rw [restart, NameNode.blocks_restarted] at h
    cases h

theorem Grounded.step (h : Grounded s) (hs : Fleet.step ids s a = some s') : Grounded s' := by
  cases a with
  | registerSelf i freeSpace hop t =>
      obtain ⟨-, hs⟩ := Option.ite_none_right_eq_some.mp hs
      obtain rfl := Option.some.inj hs
      rw [registerSelf]
      split
      next => exact h
      next req _ =>
        have hsent := h.sendToNameNode hop req t
        dsimp only
        split
        next => exact ⟨hsent.keyed, hsent.table, hsent.backed⟩
        next => exact hsent
  | sendBlockReport i it hop t =>
      obtain ⟨-, hs⟩ := Option.ite_none_right_eq_some.mp hs
      obtain rfl := Option.some.inj hs
      obtain ⟨hkeyed, htable, hbacked⟩ := h.sendToNameNode hop _ t
      exact ⟨hkeyed, htable, hbacked⟩
  | sendHeartbeat i freeSpace it hop t =>
      obtain ⟨-, hs⟩ := Option.ite_none_right_eq_some.mp hs
      obtain rfl := Option.some.inj hs
      exact h.sendToNameNode hop _ t
  | stop i | store i store =>
      obtain rfl := Option.some.inj hs
      exact ⟨h.keyed, h.table, h.backed⟩
  | request req t =>
      obtain rfl := Option.some.inj hs
      exact h.serve req t
  | checkHealth now =>
      obtain rfl := Option.some.inj hs
      exact ⟨h.keyed.checkDataNodeHealth now,
        fun id => (DataNodeManager.mem_checkDataNodeHealth _ now id).trans (h.table id),
        h.backed⟩
  | restart paths now =>
      obtain rfl := Option.some.inj hs
      exact grounded_restart s paths now

/-- All a NameNode knows comes from what has been sent to it since it started: its DataNodes are those that have
registered, every size it has of a block was reported for it, and a location has registered or has reported the
block. -/
theorem known_from_requests (paths : List FilePath) (now : Int)
    (h : Run (step ids) (fun _ _ => True) (s.restart paths now) as s') :
    (∀ id, s'.node.dnManager.nodes.find id ≠ none ↔ id ∈ s'.enrolled) ∧
      ∀ b block, s'.node.metadata.blocks.find b = some block →
        (block.size = 0 ∨ ∃ r ∈ s'.reported, r.2.blockId = b ∧ r.2.size = block.size) ∧
          ∀ d ∈ block.locations, d ∈ s'.enrolled ∨ ∃ r ∈ s'.reported, r.2.blockId = b ∧ r.1 = d := by
  have hgrounded := h.invariant (fun s a s' hs _ hstep => Grounded.step hs hstep) (grounded_restart s paths now)
  exact ⟨hgrounded.table, hgrounded.backed⟩

/-- A DataNode with one block and its NameNode. -/
def oneNode : Fleet Unit where
  stores _ := (BlockStore.writeBlock (fun _ => 7) {} 1 [1, 2, 3] {}).2
  stages _ := .beating

theorem known_from_requests_one :
    ∃ s', Run (Fleet.step fun _ => text "a:1") (fun _ _ => True) (oneNode.restart [] 0)
        [.stop (), .registerSelf () kBlockSize .answered ⟨0, .sorted⟩,
          .sendBlockReport () .sorted .unanswered ⟨0, .sorted⟩] s' ∧
      s'.reported = [(text "a:1", ⟨1, 3⟩)] ∧ (s'.node.metadata.blocks.find 1).isSome = true ∧
      ∀ id, s'.node.dnManager.nodes.find id ≠ none ↔ id ∈ s'.enrolled := by
  obtain ⟨s', hrun, hs⟩ := exists_run_of_exec (Fleet.step fun _ => text "a:1") (fun _ _ => True) (oneNode.restart [] 0)
    [.stop (), .registerSelf () kBlockSize .answered ⟨0, .sorted⟩, .sendBlockReport () .sorted .unanswered ⟨0, .sorted⟩]
    (fun s => s.reported = [(text "a:1", ⟨1, 3⟩)] ∧ (s.node.metadata.blocks.find 1).isSome = true) (by decide)
  obtain ⟨hreported, hblock⟩ := of_decide_eq_true hs
  exact ⟨s', hrun, hreported, hblock, (known_from_requests [] 0 hrun).1⟩

/-- Where nobody has registered, and nobody does, nobody is known, and running DataNodes go on. -/
theorem step_silent (hs : Fleet.step ids s a = some s') (ha : a.registers = false) (h : s.enrolled = []) :
    s'.enrolled = [] ∧ ∀ i, s.stages i = .beating → a ≠ .stop i → s'.stages i = .beating := by
  have hserve (req : NameNodeRequest) (t : Moment) (hreq : req.op ≠ .registerDn) :
      (s.serve req t).2.enrolled = [] ∧ (s.serve req t).2.stages = s.stages := by
    refine ⟨?_, rfl⟩
    change s.enrolled ++ req.enrolls = []
    rw [h, NameNodeRequest.enrolls, if_neg hreq]
    rfl
  have hsend (hop : Hop) (req : NameNodeRequest) (t : Moment) (hreq : req.op ≠ .registerDn) :
      (s.sendToNameNode hop req t).2.enrolled = [] ∧ (s.sendToNameNode hop req t).2.stages = s.stages := by
    cases hop with
    | refused | lost => exact ⟨h, rfl⟩
    | unanswered | answered => exact hserve req t hreq
  cases a with
  | registerSelf i freeSpace hop t => cases ha
  | sendBlockReport i it hop t =>
      obtain ⟨-, hs⟩ := Option.ite_none_right_eq_some.mp hs
      obtain rfl := Option.some.inj hs
      obtain ⟨henrolled, hstages⟩ := hsend hop (blockReportRequest (ids i) ((s.stores i).listAllBlocks it)) t nofun
      refine ⟨henrolled, fun j hj _ => ?_⟩
      simp only [sendBlockReport, setStage, hstages]
      by_cases hji : j = i
      · rw [hji, Function.update_self]
      · rw [Function.update_of_ne hji, hj]
  | sendHeartbeat i freeSpace it hop t =>
      obtain ⟨-, hs⟩ := Option.ite_none_right_eq_some.mp hs
      obtain rfl := Option.some.inj hs
      obtain ⟨henrolled, hstages⟩ :=
        hsend hop (heartbeatRequest (ids i) freeSpace ((s.stores i).listAllBlocks it)) t nofun
      exact ⟨henrolled, fun j hj _ => (congrFun hstages j).trans hj⟩
  | stop i =>
      obtain rfl := Option.some.inj hs
      refine ⟨h, fun j hj hne => ?_⟩
      have hji : j ≠ i := fun he => hne (by rw [he])
      exact (Function.update_of_ne hji _ _).trans hj
  | request req t =>
      obtain rfl := Option.some.inj hs
      obtain ⟨henrolled, hstages⟩ := hserve req t (of_decide_eq_false ha)
      exact ⟨henrolled, fun j hj _ => (congrFun hstages j).trans hj⟩
  | store i store =>
      obtain rfl := Option.some.inj hs
      exact ⟨h, fun j hj _ => hj⟩
  | checkHealth now =>
      obtain rfl := Option.some.inj hs
      exact ⟨h, fun j hj _ => hj⟩
  | restart paths now =>
      obtain rfl := Option.some.inj hs
      exact ⟨rfl, fun j hj _ => hj⟩

theorem run_silent (h : Run (Fleet.step ids) (fun _ _ => True) s as s') (hnone : ∀ a ∈ as, a.registers = false)
    (hs : s.enrolled = []) :
    s'.enrolled = [] ∧ ∀ i, s.stages i = .beating → (∀ a ∈ as, a ≠ .stop i) → s'.stages i = .beating := by
  induction h with
  | nil => exact ⟨hs, fun i hi _ => hi⟩
  | @snoc as s₁ s₂ a _ _ hstep ih =>
      obtain ⟨hbefore, hlast⟩ := List.forall_mem_append.mp hnone
      obtain ⟨henrolled, hstages⟩ := ih hbefore
      obtain ⟨henrolled', hstages'⟩ := step_silent hstep (hlast a List.mem_cons_self) henrolled
      refine ⟨henrolled', fun i hi hnever => ?_⟩
      obtain ⟨hnever₁, hnever₂⟩ := List.forall_mem_append.mp hnever
      exact hstages' i (hstages i hi hnever₁) (hnever₂ a List.mem_cons_self)

/-- Once the NameNode is started again, and until a DataNode process is, no DataNode is known, whatever else is sent:
the running DataNodes go on with heartbeats that all fail, and every allocation fails and changes nothing. -/
theorem restart_silences (paths : List FilePath) (now : Int)
    (h : Run (Fleet.step ids) (fun _ _ => True) (s.restart paths now) as s') (hnone : ∀ a ∈ as, a.registers = false) :
    (∀ id, s'.node.dnManager.nodes.find id = none) ∧
      (∀ i, s.stages i = .beating → (∀ a ∈ as, a ≠ .stop i) → s'.stages i = .beating) ∧
      (∀ i freeSpace it hop t, (s'.sendHeartbeat ids i freeSpace it hop t).1 = false) ∧
      ∀ req t, req.op = .allocateBlock →
        (s'.node.processRequest req t).1.success = false ∧ (s'.node.processRequest req t).2 = s'.node := by
  have hgrounded := h.invariant (fun s a s' hs _ hstep => Grounded.step hs hstep) (grounded_restart s paths now)
  obtain ⟨henrolled, hstages⟩ := run_silent h hnone rfl
  have hnobody (id : DataNodeId) : s'.node.dnManager.nodes.find id = none := by
    by_contra hknown
    have hmem := (hgrounded.table id).mp hknown
    rw [henrolled] at hmem
    cases hmem
  refine ⟨hnobody, hstages, fun i freeSpace it hop t => ?_, fun req t hop => ?_⟩
  · cases hop with
    | refused | lost | unanswered => rfl
    | answered =>
        simp only [sendHeartbeat, sendToNameNode, serve, NameNode.processRequest, NameNode.handle, heartbeatRequest,
          NameNode.handleHeartbeat_eq, Option.getD_some, hnobody]
        rfl
  · have hchosen : s'.node.chosenBlock t = none := by
      rw [NameNode.chosenBlock_eq_none]
      rintro ⟨id, info, hid, -⟩
      rw [hnobody] at hid
      cases hid
    obtain ⟨error, he⟩ := @NameNode.handleAllocateBlock_none s'.node (req.allocateBlock.getD {}) t (.inr hchosen)
    simp only [NameNode.processRequest, NameNode.handle, hop, he]
    exact ⟨rfl, trivial⟩

def silentActions : List (FleetAction Unit) :=
  [.sendHeartbeat () kBlockSize .sorted .answered ⟨0, .sorted⟩, .checkHealth 5]

theorem restart_silences_one :
    ∃ s', Run (Fleet.step fun _ => text "a:1") (fun _ _ => True) (oneNode.restart [text "/f"] 0) silentActions s' ∧
      s'.stages () = .beating ∧
      ∀ freeSpace it hop t, (s'.sendHeartbeat (fun _ => text "a:1") () freeSpace it hop t).1 = false := by
  obtain ⟨s', hrun, -⟩ := exists_run_of_exec (Fleet.step fun _ => text "a:1") (fun _ _ => True)
    (oneNode.restart [text "/f"] 0) silentActions (fun _ => true) (by decide)
  have hnone : ∀ a ∈ silentActions, a.registers = false := by
    rw [silentActions, List.forall_mem_cons, List.forall_mem_singleton]
    exact ⟨rfl, rfl⟩
  have hnever : ∀ a ∈ silentActions, a ≠ .stop () := by
    rw [silentActions, List.forall_mem_cons, List.forall_mem_singleton]
    exact ⟨nofun, nofun⟩
  obtain ⟨-, hstages, hbeats, -⟩ := restart_silences [text "/f"] 0 hrun hnone
  exact ⟨s', hrun, hstages () rfl hnever, hbeats ()⟩

end Fleet

end MiniStorage.Namenode
