import MiniStorage.Namenode.Writers
import Mathlib.Data.List.Nodup

namespace MiniStorage.Namenode

open Raft

/-- A leader keeps what it has not applied, and applies what it had in its log. -/
structure Forward (n n' : RaftNode) : Prop where
  commit : n.commitIndex ≤ n'.commitIndex
  applied : n'.lastApplied = n'.commitIndex
  sentinel : n'.log = {} :: n'.log.tail
  sorted : Sorted n'.log
  kept : ∀ e : LogEntry, n'.commitIndex < e.index → n.getLogEntry e.index = some e → n'.getLogEntry e.index = some e
  upper : n'.upper = n.upper ++
    (List.range' (n.commitIndex + 1) (n'.commitIndex - n.commitIndex)).map fun i => .applied i (n.getLogEntry i)

/-- The log of a leader between two sections. -/
structure Leads (n : RaftNode) : Prop where
  sentinel : n.log = {} :: n.log.tail
  sorted : Sorted n.log
  applied : n.lastApplied = n.commitIndex

namespace Leads

variable {n n' : RaftNode} {cfg : RaftConfig}

theorem forward_of_eq (h : Leads n) (hlog : n'.log = n.log) (hcommit : n'.commitIndex = n.commitIndex)
    (happlied : n'.lastApplied = n.lastApplied) (hupper : n'.upper = n.upper) : Forward n n' where
  commit := hcommit.ge
  applied := by rw [happlied, hcommit, h.applied]
  sentinel := by rw [hlog]; exact h.sentinel
  sorted := by rw [hlog]; exact h.sorted
  kept e _ he := by rwa [RaftNode.getLogEntry, hlog]
  upper := by rw [hupper, hcommit, Nat.sub_self, List.range'_zero, List.map_nil, List.append_nil]

theorem propose (h : Leads n) (cfg : RaftConfig) (command : Bytes) : Forward n (n.propose cfg command).1 where
  commit := le_rfl
  applied := h.applied
  sentinel := by
    change n.log ++ _ = {} :: (n.log ++ _).tail
    rw [h.sentinel]
    rfl
  sorted := h.sorted.append_one (Nat.lt_succ_self _)
  kept _ _ he := find_of_isPrefix (List.prefix_append _ _) he
  upper := by
    change n.upper = n.upper ++ (List.range' _ (n.commitIndex - n.commitIndex)).map _
    rw [Nat.sub_self, List.range'_zero, List.map_nil, List.append_nil]

theorem trimSnapshot (h : Leads n) {snap : SnapshotMetadata} (hle : snap.lastIncludedIndex ≤ n.commitIndex) :
    Forward n (n.trimSnapshot snap) where
  commit := le_rfl
  applied := h.applied
  sentinel := by
    change RaftNode.trimLog n.log _ = {} :: (RaftNode.trimLog n.log _).tail
    rw [h.sentinel]
    rfl
  sorted := h.sorted.trimLog h.sentinel _
  kept _ hlt he := find_trimLog h.sentinel he (hle.trans_lt hlt)
  upper := by
    change n.upper = n.upper ++ (List.range' _ (n.commitIndex - n.commitIndex)).map _
    rw [Nat.sub_self, List.range'_zero, List.map_nil, List.append_nil]

theorem forward_of_commit (h : Leads n) (hlog : n'.log = n.log) {k : Nat} (hk : Commit n n' k) : Forward n n' where
  commit := hk.commitIndex ▸ hk.new.le
  applied := by rw [hk.lastApplied, hk.commitIndex, h.applied, max_eq_right hk.new.le]
  sentinel := by rw [hlog]; exact h.sentinel
  sorted := by rw [hlog]; exact h.sorted
  kept e _ he := by rwa [RaftNode.getLogEntry, hlog]
  upper := by
    rw [hk.upper, hk.commitIndex, h.applied]
    simp only [RaftNode.getLogEntry, hlog]

theorem advanceCommitIndex (h : Leads n) (cfg : RaftConfig) : Forward n (n.advanceCommitIndex cfg) := by
  obtain ⟨i, j, u, hshape⟩ := n.advanceCommitIndex_shape cfg
  rcases commit_advanceCommitIndex cfg n with he | ⟨k, hk⟩
  · rw [he]
    exact h.forward_of_eq rfl rfl rfl rfl
  · refine h.forward_of_commit ?_ hk
    rw [hshape]

theorem reply (h : Leads n) (cfg : RaftConfig) (peer : Bytes) (resp : AppendEntriesResponse) :
    Forward n (n.handleAppendEntriesResponse cfg peer resp) := by
  have hout := RaftNode.handleAppendEntriesResponse_cases cfg n peer resp
  generalize n.handleAppendEntriesResponse cfg peer resp = n' at hout
  cases hout with
  | adopt | ignore | retry => exact h.forward_of_eq rfl rfl rfl rfl
  | matched =>
      have hm := advanceCommitIndex (n := { n with
        matchIndex := Function.update n.matchIndex peer (some resp.matchIndex)
        nextIndex := Function.update n.nextIndex peer (some (resp.matchIndex + 1)) })
          ⟨h.sentinel, h.sorted, h.applied⟩ cfg
      exact ⟨hm.commit, hm.applied, hm.sentinel, hm.sorted, hm.kept, hm.upper⟩

theorem vote (h : Leads n) (req : RequestVoteRequest) : Forward n (n.handleRequestVote req).1 := by
  have hout := n.handleRequestVote_cases req
  generalize n.handleRequestVote req = answer at hout
  cases hout with
  | stale => exact h.forward_of_eq rfl rfl rfl rfl
  | refuse | grant =>
      apply h.forward_of_eq
      · exact RaftNode.catchUp_log _
      · exact RaftNode.catchUp_commitIndex _
      · exact RaftNode.catchUp_lastApplied _
      · exact RaftNode.catchUp_upper _

end Leads

/-- The calls of apply_cb_ that a section leaves behind are for the entries it has committed. -/
theorem Forward.mem_calls {n n' : RaftNode} (h : Forward n n') {i : Nat} {command : Bytes} :
    (i, command) ∈ applyCalls (n'.upper.drop n.upper.length) ↔
      n.commitIndex < i ∧ i ≤ n'.commitIndex ∧ ∃ e, n.getLogEntry i = some e ∧ e.command = command ∧ command ≠ [] := by
  have hcommit := h.commit
  rw [h.upper, List.drop_left, applyCalls, List.filterMap_map, List.mem_filterMap]
  constructor
  · rintro ⟨j, hj, hcall⟩
    rw [List.mem_range'_1] at hj
    simp only [Function.comp] at hcall
    cases he : n.getLogEntry j with
    | none => simp [he] at hcall
    | some e =>
        simp only [he, Option.ite_none_left_eq_some] at hcall
        obtain ⟨hne, hcall⟩ := hcall
        cases hcall
        exact ⟨by omega, by omega, e, he, rfl, hne⟩
  · rintro ⟨hlt, hle, e, he, rfl, hne⟩
    refine ⟨i, List.mem_range'_1.mpr (by omega), ?_⟩
    simp [he, hne]

theorem increasing_filterMap {f : Nat → Option (Nat × Bytes)} (hf : ∀ i x, f i = some x → x.1 = i) (start len : Nat) :
    ((List.range' start len).filterMap f).Pairwise fun x y => x.1 < y.1 := by
  apply List.Pairwise.filterMap f ?_ List.pairwise_lt_range'
  intro i j hij x hx y hy
  rw [hf i x hx, hf j y hy]
  exact hij

theorem Forward.calls_increase {n n' : RaftNode} (h : Forward n n') :
    ((applyCalls (n'.upper.drop n.upper.length)).map Prod.fst).Pairwise (· < ·) := by
  rw [h.upper, List.drop_left, applyCalls, List.filterMap_map, List.pairwise_map]
  refine increasing_filterMap (fun i x hx => ?_) _ _
  simp only [Function.comp] at hx
  split at hx
  next he =>
    injection he with hi
    split at hx <;> cases hx
    exact hi.symm
  next => cases hx

/-- A command that a request became. -/
structure Sent (w : Wire NameNodeRequest) (req : NameNodeRequest) (command : Bytes) : Prop where
  parse : w.parse command = some req
  nonempty : req.op = .allocateBlock → command ≠ []

/-- The request arrives as it was sent, and is not lost as an empty command. -/
def Sendable (w : Wire NameNodeRequest) (req : NameNodeRequest) : Prop :=
  ∃ command, w.serialize req = some command ∧ Sent w req command

def NameNodeRequest.allocPath (req : NameNodeRequest) : FilePath := (req.allocateBlock.getD {}).filePath

/-- The call allocated, or tried to allocate, a block for the file. -/
def ApplyCall.For (call : ApplyCall) (path : FilePath) : Prop :=
  ∃ req, call.req = some req ∧ req.op = .allocateBlock ∧ req.allocPath = path

namespace LeaderServer

variable {w : Wire NameNodeRequest} {cfg : RaftConfig} {s s' : LeaderServer}

/-- The commands that were handed over and those that are still due, one after the other. -/
def indices (s : LeaderServer) : List Nat := s.applied.map ApplyCall.index ++ s.calls.map Prod.fst

structure InOrder (s : LeaderServer) : Prop where
  leads : Leads s.raft
  captured : ∀ snap ∈ s.captured, snap.lastIncludedIndex ≤ s.raft.commitIndex
  increasing : s.indices.Pairwise (· < ·)
  committed : ∀ i ∈ s.indices, i ≤ s.raft.commitIndex

/-- What is known of an allocation that a worker has in hand. -/
structure OnTrack (w : Wire NameNodeRequest) (s : LeaderServer) (x : Writer) : Prop where
  sent : ∀ command, x.stage = .propose command → Sent w x.req command
  parsed : ∀ e, x.stage.entry = some e → Sent w x.req e.command
  pending : ∀ e, x.stage.entry = some e → s.raft.commitIndex < e.index → s.raft.getLogEntry e.index = some e
  applied : ∀ e, x.stage.entry = some e → e.index ≤ s.raft.commitIndex →
    (e.index, e.command) ∈ s.calls ∨ ∃ block, ⟨e.index, x.req, block⟩ ∈ s.applied
  found : ∀ e, x.stage = .readFile e → ∃ block, ⟨e.index, x.req, block⟩ ∈ s.applied
  read : ∀ e bid, x.stage = .readBlock e bid → ∃ block : BlockInfo, ⟨e.index, x.req, some block⟩ ∈ s.applied ∧
    block.blockId = bid
  told : ∀ entry resp, x.stage = .done entry resp → resp.success = true →
    ∃ e, entry = some e ∧ ∃ block : BlockInfo, ⟨e.index, x.req, some block⟩ ∈ s.applied ∧
      resp.allocateBlock.map AllocateBlockResponse.blockId = some block.blockId

theorem InOrder.forward (h : InOrder s) (hcalls : s.calls = []) {raft : RaftNode} (hf : Forward s.raft raft) :
    InOrder (s.lock raft) where
  leads := ⟨hf.sentinel, hf.sorted, hf.applied⟩
  captured snap hsnap := (h.captured snap hsnap).trans hf.commit
  increasing := by
    have hinc := h.increasing
    rw [indices, hcalls, List.map_nil, List.append_nil] at hinc
    refine List.pairwise_append.mpr ⟨hinc, hf.calls_increase, ?_⟩
    intro i hi j hj
    obtain ⟨⟨j, command⟩, hcall, rfl⟩ := List.mem_map.mp hj
    exact (h.committed i (List.mem_append_left _ hi)).trans_lt (hf.mem_calls.mp hcall).1
  committed i hi := by
    rcases List.mem_append.mp hi with hi | hi
    · exact (h.committed i (List.mem_append_left _ hi)).trans hf.commit
    · obtain ⟨⟨i, command⟩, hcall, rfl⟩ := List.mem_map.mp hi
      exact (hf.mem_calls.mp hcall).2.1

theorem OnTrack.forward {x : Writer} (h : OnTrack w s x) (hcalls : s.calls = []) (hop : x.req.op = .allocateBlock)
    {raft : RaftNode} (hf : Forward s.raft raft) : OnTrack w (s.lock raft) x where
  sent := h.sent
  parsed := h.parsed
  pending e he hlt := hf.kept e hlt (h.pending e he (hf.commit.trans_lt hlt))
  applied e he hle := by
    rcases Nat.lt_or_ge s.raft.commitIndex e.index with hlt | hge
    · exact .inl (hf.mem_calls.mpr ⟨hlt, hle, e, h.pending e he hlt, rfl, (h.parsed e he).nonempty hop⟩)
    · rcases h.applied e he hge with hmem | hblock
      · rw [hcalls] at hmem
        cases hmem
      · exact .inr hblock
  found := h.found
  read := h.read
  told := h.told

theorem applyCall_eq {t : Moment} (h : s.applyCall w t = some s') : ∃ index command rest,
    s.calls = (index, command) :: rest ∧ s' = { s with
      core := (s.core.onApplyCommitted w command t).2
      calls := rest
      applied := s.applied ++ [⟨index, w.parse command, (s.core.onApplyCommitted w command t).1⟩] } := by
  rw [applyCall] at h
  split at h
  next => cases h
  next index command rest hcalls => exact ⟨index, command, rest, hcalls, (Option.some.inj h).symm⟩

theorem InOrder.applyCall (h : InOrder s) {t : Moment} (hs : s.applyCall w t = some s') : InOrder s' := by
  obtain ⟨index, command, rest, hcalls, rfl⟩ := applyCall_eq hs
  have hind (core : NameNode) (call : ApplyCall) (hi : call.index = index) : indices { s with
      core := core, calls := rest, applied := s.applied ++ [call] } = s.indices := by
    simp [indices, hcalls, hi]
  refine ⟨h.leads, h.captured, ?_, ?_⟩
  · rw [hind _ _ rfl]
    exact h.increasing
  · rw [hind _ _ rfl]
    exact h.committed

theorem OnTrack.applyCall {x : Writer} (h : OnTrack w s x) {t : Moment} (hs : s.applyCall w t = some s') :
    OnTrack w s' x := by
  obtain ⟨index, command, rest, hcalls, rfl⟩ := applyCall_eq hs
  have hkeep {call : ApplyCall} (hc : call ∈ s.applied) :
      call ∈ s.applied ++ [⟨index, w.parse command, (s.core.onApplyCommitted w command t).1⟩] :=
    List.mem_append_left _ hc
  refine ⟨h.sent, h.parsed, h.pending, ?_, ?_, ?_, ?_⟩
  · intro e he hle
    rcases h.applied e he hle with hmem | ⟨block, hblock⟩
    · rw [hcalls] at hmem
      rcases List.mem_cons.mp hmem with heq | hmem
      · cases heq
        refine .inr ⟨(s.core.onApplyCommitted w e.command t).1, List.mem_append_right _ ?_⟩
        rw [(h.parsed e he).parse]
        exact List.mem_singleton_self _
      · exact .inl hmem
    · exact .inr ⟨block, hkeep hblock⟩
  · intro e he
    obtain ⟨block, hblock⟩ := h.found e he
    exact ⟨block, hkeep hblock⟩
  · intro e bid he
    obtain ⟨block, hblock, hid⟩ := h.read e bid he
    exact ⟨block, hkeep hblock, hid⟩
  · intro entry resp he hok
    obtain ⟨e, hentry, block, hblock, hid⟩ := h.told entry resp he hok
    exact ⟨e, hentry, block, hkeep hblock, hid⟩

end LeaderServer

namespace NameNode

variable {n : NameNode} {req : NameNodeRequest} {t : Moment}

theorem lastBlock_eq (n : NameNode) (path : FilePath) :
    n.lastBlock path = (n.metadata.files.find path).bind fun f => f.blocks.getLast? := rfl

/-- What a command that allocates does: nothing, or its block becomes the last one of the file. -/
theorem apply_allocate (hop : req.op = .allocateBlock) :
    (n.apply req t = (none, n) ∧ (n.metadata.files.find req.allocPath = none ∨ ¬ n.Usable)) ∨
      ∃ block n', n.apply req t = (some block, n') ∧ block.blockId = n.blockManager.nextBlockId ∧
        n'.blockManager.nextBlockId = n.blockManager.nextBlockId + 1 ∧
        n'.lastBlock req.allocPath = some block.blockId ∧ ∀ p ≠ req.allocPath, n'.lastBlock p = n.lastBlock p := by
  rw [apply, hop]
  cases hf : n.metadata.files.find req.allocPath with
  | none => exact .inl ⟨applyAllocateBlock_none (.inl hf), .inl rfl⟩
  | some f =>
      cases hb : n.chosenBlock t with
      | none => exact .inl ⟨applyAllocateBlock_none (.inr hb), .inr ((n.chosenBlock_eq_none).mp hb)⟩
      | some chosen =>
          obtain ⟨block, blockManager⟩ := chosen
          obtain ⟨-, hid, -, hnext, -⟩ := BlockManager.allocateBlock_some hb
          refine .inr ⟨block, _, applyAllocateBlock_some hf hb, hid, hnext, ?_, ?_⟩
          · rw [lastBlock_eq, files_commitBlock]
            have hf' : n.metadata.files.find (req.allocateBlock.getD {}).filePath = some f := hf
            simp [NameNodeRequest.allocPath, hf']
          · intro p hp
            have hne : p ≠ (req.allocateBlock.getD {}).filePath := hp
            rw [lastBlock_eq, files_commitBlock, if_neg hne, lastBlock_eq]

theorem lastBlock_apply (hop : req.op ≠ .allocateBlock) :
    (n.apply req t).1 = none ∧ (n.apply req t).2.blockManager = n.blockManager ∧
      ∀ p, (n.apply req t).2.lastBlock p = none ∨ (n.apply req t).2.lastBlock p = n.lastBlock p := by
  rw [apply]
  cases h : req.op with
  | allocateBlock => exact absurd h hop
  | createFile =>
      refine ⟨rfl, rfl, ?_⟩
      intro p
      simp only [applyCreateFile, lastBlock_eq, MetadataStore.find_createFile]
      split
      · exact .inl rfl
      · exact .inr rfl
  | deleteFile =>
      simp only [applyDeleteFile]
      cases n.metadata.getFile (req.deleteFile.getD {}).path with
      | none => exact ⟨trivial, rfl, fun p => .inr rfl⟩
      | some f =>
          refine ⟨trivial, rfl, ?_⟩
          intro p
          simp only [lastBlock_eq, files_removeFile]
          split
          · exact .inl rfl
          · exact .inr rfl
  | getFileBlocks | listFiles | registerDn | heartbeat | blockReport | unknown =>
      exact ⟨rfl, rfl, fun p => .inr rfl⟩

end NameNode

namespace LeaderServer

variable {w : Wire NameNodeRequest} {cfg : RaftConfig} {s s' : LeaderServer} {index : Nat}

/-- The condition on a step. -/
def Careful (w : Wire NameNodeRequest) (s : LeaderServer) : LeaderAction → Prop
  | .work i => ∀ x, s.writers[i]? = some x → x.req.op = .allocateBlock →
      match x.stage with
      | .propose _ => s.raft.commitIndex ≤ (back s.raft.log).index
      | .readFile entry => ∀ call ∈ s.applied, entry.index < call.index → ¬ call.For x.req.allocPath
      | _ => True
  | .apply _ => ∀ index command rest, s.calls = (index, command) :: rest →
      ∀ req, w.parse command = some req → req.op = .allocateBlock →
        (s.core.lastBlock req.allocPath ≠ none → s.core.Usable) ∧ s.core.blockManager.nextBlockId + 1 ≠ 0
  | _ => True

/-- What the tables have of the blocks that were handed out: the last one of a file is the one of the last command
for it, unless the file was deleted since. -/
structure HandsOut (s : LeaderServer) : Prop where
  ids : (s.applied.filterMap fun call => call.block.map BlockInfo.blockId).Pairwise (· < ·)
  below : ∀ call ∈ s.applied, ∀ block, call.block = some block → block.blockId < s.core.blockManager.nextBlockId
  last : ∀ call ∈ s.applied, ∀ path, call.For path →
    (∀ later ∈ s.applied, call.index < later.index → ¬ later.For path) →
    s.core.lastBlock path = none ∨ ∃ block, call.block = some block ∧ s.core.lastBlock path = some block.blockId

theorem HandsOut.of_core (h : HandsOut s) (happlied : s'.applied = s.applied)
    (hnext : s'.core.blockManager.nextBlockId = s.core.blockManager.nextBlockId)
    (hlast : ∀ p, s'.core.lastBlock p = s.core.lastBlock p) : HandsOut s' where
  ids := by
    rw [happlied]
    exact h.ids
  below := by
    rw [happlied, hnext]
    exact h.below
  last := by
    simp only [happlied, hlast]
    exact h.last

theorem HandsOut.skip (h : HandsOut s) {req : Option NameNodeRequest} {core : NameNode} {calls : List (Nat × Bytes)}
    (hnext : core.blockManager.nextBlockId = s.core.blockManager.nextBlockId)
    (hlast : ∀ p, core.lastBlock p = none ∨ core.lastBlock p = s.core.lastBlock p)
    (hnone : ∀ path, ApplyCall.For ⟨index, req, none⟩ path → core.lastBlock path = none) :
    HandsOut { s with core := core, calls := calls, applied := s.applied ++ [⟨index, req, none⟩] } where
  ids := by
    rw [List.filterMap_append]
    simpa using h.ids
  below := by
    intro call hcall block hblock
    rw [hnext]
    rcases List.mem_append.mp hcall with hcall | hcall
    · exact h.below call hcall block hblock
    · rw [List.mem_singleton.mp hcall] at hblock
      cases hblock
  last := by
    intro call hcall path hfor hlater
    rcases List.mem_append.mp hcall with hcall | hcall
    · rcases hlast path with hl | hl
      · exact .inl hl
      · change core.lastBlock path = none ∨ ∃ block, call.block = some block ∧ core.lastBlock path = some block.blockId
        rw [hl]
        exact h.last call hcall path hfor fun later hl => hlater later (List.mem_append_left _ hl)
    · rw [List.mem_singleton.mp hcall] at hfor
      exact .inl (hnone path hfor)

theorem HandsOut.grant (h : HandsOut s) (horder : ∀ i ∈ s.applied.map ApplyCall.index, i < index)
    {req : NameNodeRequest} (hop : req.op = .allocateBlock) {block : BlockInfo} {core : NameNode}
    {calls : List (Nat × Bytes)} (hid : block.blockId = s.core.blockManager.nextBlockId)
    (hwrap : s.core.blockManager.nextBlockId + 1 ≠ 0)
    (hnext : core.blockManager.nextBlockId = s.core.blockManager.nextBlockId + 1)
    (hown : core.lastBlock req.allocPath = some block.blockId)
    (hother : ∀ p ≠ req.allocPath, core.lastBlock p = s.core.lastBlock p) :
    HandsOut { s with core := core, calls := calls, applied := s.applied ++ [⟨index, some req, some block⟩] } where
  ids := by
    rw [List.filterMap_append]
    refine List.pairwise_append.mpr ⟨h.ids, by simp, ?_⟩
    intro b hb c hc
    obtain ⟨call, hcall, hblock⟩ := List.mem_filterMap.mp hb
    obtain ⟨block', hblock', rfl⟩ := Option.map_eq_some_iff.mp hblock
    obtain rfl : c = block.blockId := by simpa using hc
    rw [hid]
    exact h.below call hcall block' hblock'
  below := by
    intro call hcall block' hblock
    rw [hnext]
    rcases List.mem_append.mp hcall with hcall | hcall
    · exact lt_add_one_of_no_wrap hwrap (UInt64.le_of_lt (h.below call hcall block' hblock))
    · rw [List.mem_singleton.mp hcall] at hblock
      rw [← Option.some.inj hblock, hid]
      exact lt_add_one_of_no_wrap hwrap (UInt64.le_refl _)
  last := by
    intro call hcall path hfor hlater
    have hnew : ApplyCall.For ⟨index, some req, some block⟩ req.allocPath := ⟨req, rfl, hop, rfl⟩
    rcases List.mem_append.mp hcall with hcall | hcall
    · have hne : path ≠ req.allocPath := by
        rintro rfl
        exact hlater _ (List.mem_append_right _ (List.mem_singleton_self _))
          (horder _ (List.mem_map_of_mem hcall)) hnew
      change core.lastBlock path = none ∨ ∃ block, call.block = some block ∧ core.lastBlock path = some block.blockId
      rw [hother path hne]
      exact h.last call hcall path hfor fun later hl => hlater later (List.mem_append_left _ hl)
    · obtain rfl := List.mem_singleton.mp hcall
      obtain ⟨req', hreq, -, rfl⟩ := hfor
      cases hreq
      exact .inr ⟨block, rfl, hown⟩

theorem HandsOut.applyCall (h : HandsOut s) (horder : InOrder s) {t : Moment} (hcareful : s.Careful w (.apply t))
    (hs : s.applyCall w t = some s') : HandsOut s' := by
  obtain ⟨index, command, rest, hcalls, rfl⟩ := applyCall_eq hs
  have hbehind : ∀ i ∈ s.applied.map ApplyCall.index, i < index := by
    intro i hi
    refine (List.pairwise_append.mp horder.increasing).2.2 i hi index ?_
    rw [hcalls]
    exact List.mem_cons_self
  rw [NameNode.onApplyCommitted]
  cases hparse : w.parse command with
  | none =>
      refine h.skip rfl (fun p => .inr rfl) ?_
      rintro path ⟨req, hreq, -⟩
      cases hreq
  | some req =>
      by_cases hop : req.op = .allocateBlock
      · obtain ⟨husable, hwrap⟩ := hcareful index command rest hcalls req hparse hop
        rcases NameNode.apply_allocate (n := s.core) (t := t) hop with
          ⟨he, hwhy⟩ | ⟨block, core, he, hid, hnext, hown, hother⟩
        · simp only [he]
          refine h.skip rfl (fun p => .inr rfl) ?_
          rintro path ⟨req', hreq, -, rfl⟩
          cases hreq
          by_contra hne
          rcases hwhy with hnone | hnot
          · rw [NameNode.lastBlock_eq, hnone] at hne
            exact hne rfl
          · exact hnot (husable hne)
        · simp only [he]
          exact h.grant hbehind hop hid hwrap hnext hown hother
      · obtain ⟨hnone, hmanager, hlast⟩ := NameNode.lastBlock_apply (n := s.core) (t := t) hop
        simp only [hnone]
        refine h.skip (by rw [hmanager]) hlast ?_
        rintro path ⟨req', hreq, hop', -⟩
        cases hreq
        exact absurd hop' hop

theorem OnTrack.congr {x : Writer} (h : OnTrack w s x) (hraft : s'.raft = s.raft) (hcalls : s'.calls = s.calls)
    (happlied : s'.applied = s.applied) : OnTrack w s' x := by
  refine ⟨h.sent, h.parsed, ?_, ?_, ?_, ?_, ?_⟩
  · rw [hraft]
    exact h.pending
  · rw [hraft, hcalls, happlied]
    exact h.applied
  · rw [happlied]
    exact h.found
  · rw [happlied]
    exact h.read
  · rw [happlied]
    exact h.told

/-- What a worker has seen when it comes to this stage. -/
def Arrives (w : Wire NameNodeRequest) (s : LeaderServer) (req : NameNodeRequest) : WriteStage → Prop
  | .checkLeader | .advance _ | .waiting _ => True
  | .propose command => Sent w req command
  | .readFile e => ∃ block, ⟨e.index, req, block⟩ ∈ s.applied
  | .readBlock e bid => ∃ block : BlockInfo, ⟨e.index, req, some block⟩ ∈ s.applied ∧ block.blockId = bid
  | .done entry resp => resp.success = true → ∃ e, entry = some e ∧
      ∃ block : BlockInfo, ⟨e.index, req, some block⟩ ∈ s.applied ∧
        resp.allocateBlock.map AllocateBlockResponse.blockId = some block.blockId

theorem OnTrack.goTo {x : Writer} (h : OnTrack w s x) {stage : WriteStage} (hentry : stage.entry = x.stage.entry)
    (harrives : Arrives w s x.req stage) : OnTrack w s { x with stage := stage } where
  sent command he := by
    obtain rfl : stage = .propose command := he
    exact harrives
  parsed e he := h.parsed e (hentry.symm.trans he)
  pending e he := h.pending e (hentry.symm.trans he)
  applied e he := h.applied e (hentry.symm.trans he)
  found e he := by
    obtain rfl : stage = .readFile e := he
    exact harrives
  read e bid he := by
    obtain rfl : stage = .readBlock e bid := he
    exact harrives
  told entry resp he := by
    obtain rfl : stage = .done entry resp := he
    exact harrives

theorem OnTrack.refuse {x : Writer} (h : OnTrack w s x) {entry : Option LogEntry} (hentry : entry = x.stage.entry)
    {resp : NameNodeResponse} (hresp : resp.success = false) : OnTrack w s { x with stage := .done entry resp } := by
  refine h.goTo hentry fun hok => ?_
  rw [hresp] at hok
  cases hok

theorem getLogEntry_propose (h : Leads s.raft) (command : Bytes) :
    (s.raft.propose cfg command).1.getLogEntry (s.raft.propose cfg command).2.index =
      some (s.raft.propose cfg command).2 := by
  have hlog : (s.raft.propose cfg command).1.log = s.raft.log ++ [(s.raft.propose cfg command).2] := rfl
  have hnone : s.raft.log.find? (·.index = (s.raft.propose cfg command).2.index) = none := by
    apply List.find?_eq_none.mpr
    intro e he
    have hle := h.sorted.le_back he
    have hindex : (s.raft.propose cfg command).2.index = (back s.raft.log).index + 1 := rfl
    simp only [hindex, decide_eq_true_eq]
    omega
  rw [RaftNode.getLogEntry, hlog, List.find?_append, hnone]
  simp

/-- The entry of the request is the last of the log, and not committed. -/
theorem OnTrack.propose {x : Writer} {command : Bytes} (h : OnTrack w s x) (horder : InOrder s)
    (hcommit : s.raft.commitIndex ≤ (back s.raft.log).index) (hstage : x.stage = .propose command) :
    OnTrack w (s.lock (s.raft.propose cfg command).1)
      { x with stage := .advance (s.raft.propose cfg command).2 } where
  sent command' he := by cases he
  parsed e he := by
    obtain rfl := Option.some.inj he
    exact h.sent command hstage
  pending e he _ := by
    obtain rfl := Option.some.inj he
    exact getLogEntry_propose horder.leads command
  applied e he hle := by
    obtain rfl := Option.some.inj he
    have hindex : (s.raft.propose cfg command).2.index = (back s.raft.log).index + 1 := rfl
    have hle' : (s.raft.propose cfg command).2.index ≤ s.raft.commitIndex := hle
    omega
  found e he := by cases he
  read e bid he := by cases he
  told entry resp he := by cases he

theorem OnTrack.write {x : Writer} {stage : WriteStage} {s₁ : LeaderServer} (h : OnTrack w s x) (horder : InOrder s)
    (hands : HandsOut s) (hop : x.req.op = .allocateBlock) (hsendable : Sendable w x.req) {i : Nat}
    (hi : s.writers[i]? = some x) (hcareful : s.Careful w (.work i)) (hcalls : x.stage.locks = true → s.calls = [])
    (hw : s.write w cfg x.req x.stage = some (stage, s₁)) : OnTrack w s₁ { x with stage := stage } := by
  have hcare := hcareful x hi hop
  cases hstage : x.stage with
  | checkLeader =>
      rw [hstage, LeaderServer.write] at hw
      split at hw
      next =>
        cases hw
        exact h.refuse (by rw [hstage]; rfl) rfl
      next =>
        obtain ⟨command, hser, hsent⟩ := hsendable
        rw [hser] at hw
        cases hw
        exact h.goTo (by rw [hstage]; rfl) hsent
  | propose command =>
      rw [hstage] at hcare
      rw [hstage, LeaderServer.write] at hw
      split at hw
      next =>
        cases hw
        exact h.refuse (by rw [hstage]; rfl) rfl
      next =>
        cases hw
        exact h.propose horder hcare hstage
  | advance e =>
      rw [hstage, LeaderServer.write] at hw
      cases hw
      have hf := h.forward (hcalls (by rw [hstage]; rfl)) hop (horder.leads.advanceCommitIndex cfg)
      exact hf.goTo (by rw [hstage]; rfl) trivial
  | waiting e =>
      rw [hstage, LeaderServer.write] at hw
      split at hw
      next hle =>
        cases hw
        refine h.goTo (by rw [hstage]; rfl) ?_
        rcases h.applied e (by rw [hstage]; rfl) hle with hmem | hblock
        · rw [hcalls (by rw [hstage]; rfl)] at hmem
          cases hmem
        · exact hblock
      next =>
        split at hw
        next =>
          cases hw
          exact h.refuse (by rw [hstage]; rfl) rfl
        next => cases hw
  | readFile e =>
      rw [hstage] at hcare
      obtain ⟨block, hblock⟩ := h.found e hstage
      have hlast := hands.last _ hblock x.req.allocPath ⟨x.req, rfl, hop, rfl⟩ hcare
      rw [hstage, LeaderServer.write, hop] at hw
      cases hb : s.core.lastBlock (x.req.allocateBlock.getD {}).filePath with
      | none =>
          rw [hb] at hw
          cases hw
          refine h.refuse (by rw [hstage]; rfl) ?_
          have hnone : ((s.core.metadata.getFile (x.req.allocateBlock.getD {}).filePath).bind
              fun f => f.blocks.getLast?) = none := hb
          simp [answer, NameNode.writeResponse, hop, hnone, NameNode.failure]
      | some bid =>
          rw [hb] at hw
          cases hw
          refine h.goTo (by rw [hstage]; rfl) ?_
          rcases hlast with hnone | ⟨block', hown, hlast⟩
          · rw [NameNodeRequest.allocPath, hb] at hnone
            cases hnone
          · subst hown
            rw [NameNodeRequest.allocPath, hb] at hlast
            exact ⟨block', hblock, (Option.some.inj hlast).symm⟩
  | readBlock e bid =>
      obtain ⟨block, hblock, hid⟩ := h.read e bid hstage
      rw [hstage, LeaderServer.write] at hw
      cases hw
      exact h.goTo (by rw [hstage]; rfl) fun _ => ⟨e, rfl, block, hblock, congrArg some hid.symm⟩
  | done entry resp =>
      rw [hstage, LeaderServer.write] at hw
      cases hw

theorem write_forward {req : NameNodeRequest} {stage stage' : WriteStage} {s₁ : LeaderServer} (h : Leads s.raft)
    (hw : s.write w cfg req stage = some (stage', s₁)) :
    s₁ = s ∨ stage.locks = true ∧ ∃ raft, s₁ = s.lock raft ∧ Forward s.raft raft := by
  cases stage with
  | propose command =>
      rw [LeaderServer.write] at hw
      split at hw
      · cases hw
        exact .inl rfl
      · cases hw
        exact .inr ⟨rfl, _, rfl, h.propose cfg command⟩
  | advance e =>
      cases hw
      exact .inr ⟨rfl, _, rfl, h.advanceCommitIndex cfg⟩
  | checkLeader | waiting | readFile | readBlock | done =>
      rw [LeaderServer.write] at hw
      repeat' split at hw
      all_goals first
        | (cases hw; exact .inl rfl)
        | cases hw

theorem write_entry {req : NameNodeRequest} {stage stage' : WriteStage} {s₁ : LeaderServer}
    (hw : s.write w cfg req stage = some (stage', s₁)) :
    stage'.entry = stage.entry ∨ ∃ command e, stage = .propose command ∧ stage'.entry = some e ∧
      e.index = (back s.raft.log).index + 1 := by
  cases stage with
  | propose command =>
      rw [LeaderServer.write] at hw
      split at hw
      · cases hw
        exact .inl rfl
      · cases hw
        exact .inr ⟨command, _, rfl, rfl, rfl⟩
  | checkLeader | advance | waiting | readFile | readBlock | done =>
      rw [LeaderServer.write] at hw
      repeat' split at hw
      all_goals first
        | (cases hw; exact .inl rfl)
        | cases hw

structure Sound (w : Wire NameNodeRequest) (s : LeaderServer) : Prop where
  order : InOrder s
  hands : HandsOut s
  sendable : ∀ x ∈ s.writers, Sendable w x.req
  track : ∀ x ∈ s.writers, x.req.op = .allocateBlock → OnTrack w s x
  apart : ∀ (i j : Nat) (x y : Writer) (e e' : LogEntry), i ≠ j → s.writers[i]? = some x → s.writers[j]? = some y →
    x.req.op = .allocateBlock → y.req.op = .allocateBlock → x.stage.entry = some e → y.stage.entry = some e' → e.index ≠ e'.index

theorem Sound.frame (h : Sound w s) (hwriters : s'.writers = s.writers) (horder : InOrder s') (hands : HandsOut s')
    (htrack : ∀ x ∈ s.writers, x.req.op = .allocateBlock → OnTrack w s' x) : Sound w s' where
  order := horder
  hands := hands
  sendable := by
    rw [hwriters]
    exact h.sendable
  track := by
    rw [hwriters]
    exact htrack
  apart := by
    rw [hwriters]
    exact h.apart

theorem Sound.lock (h : Sound w s) (hcalls : s.calls = []) {raft : RaftNode} (hf : Forward s.raft raft) :
    Sound w (s.lock raft) :=
  h.frame rfl (h.order.forward hcalls hf) (h.hands.of_core rfl rfl fun _ => rfl)
    fun x hx hop => (h.track x hx hop).forward hcalls hop hf

/-- One worker goes to another stage and keeps its entry, or has a new one behind all others. -/
theorem Sound.set (h : Sound w s) {i : Nat} {x : Writer} {stage : WriteStage} (hi : s.writers[i]? = some x)
    (htrack : x.req.op = .allocateBlock → OnTrack w s { x with stage := stage })
    (hentry : stage.entry = x.stage.entry ∨ ∃ e, stage.entry = some e ∧
      (x.req.op = .allocateBlock → ∀ y ∈ s.writers, y.req.op = .allocateBlock → ∀ e', y.stage.entry = some e' →
        e'.index < e.index)) :
    Sound w { s with writers := s.writers.set i { x with stage := stage } } := by
  have hx : x ∈ s.writers := List.mem_of_getElem? hi
  have hlt := (List.getElem?_eq_some_iff.mp hi).1
  have hmem {y : Writer} (hy : y ∈ s.writers.set i { x with stage := stage }) :
      y = { x with stage := stage } ∨ y ∈ s.writers :=
    (List.mem_or_eq_of_mem_set hy).symm
  have hget {j : Nat} {y : Writer} (hy : (s.writers.set i { x with stage := stage })[j]? = some y) :
      (j = i ∧ y = { x with stage := stage }) ∨ j ≠ i ∧ s.writers[j]? = some y := by
    rw [List.getElem?_set, if_pos hlt] at hy
    split at hy
    next he => exact .inl ⟨he.symm, (Option.some.inj hy).symm⟩
    next he => exact .inr ⟨Ne.symm he, hy⟩
  have hnew (j : Nat) (y : Writer) (e e' : LogEntry) (hne : j ≠ i) (hy : s.writers[j]? = some y)
      (hop : x.req.op = .allocateBlock) (hop' : y.req.op = .allocateBlock) (he : stage.entry = some e)
      (he' : y.stage.entry = some e') : e'.index ≠ e.index := by
    rcases hentry with hsame | ⟨e₁, hsome, hfar⟩
    · exact h.apart j i y x e' e hne hy hi hop' hop he' (hsame.symm.trans he)
    · obtain rfl := Option.some.inj (hsome.symm.trans he)
      exact (hfar hop y (List.mem_of_getElem? hy) hop' e' he').ne
  refine ⟨⟨h.order.leads, h.order.captured, h.order.increasing, h.order.committed⟩,
    h.hands.of_core rfl rfl fun _ => rfl, ?_, ?_, ?_⟩
  · intro y hy
    rcases hmem hy with rfl | hy
    · exact h.sendable x hx
    · exact h.sendable y hy
  · intro y hy hop
    rcases hmem hy with rfl | hy
    · exact (htrack hop).congr rfl rfl rfl
    · exact (h.track y hy hop).congr rfl rfl rfl
  · intro j k y z e e' hjk hj hk hopy hopz he he'
    rcases hget hj with ⟨rfl, rfl⟩ | ⟨hne, hold⟩
    · rcases hget hk with ⟨rfl, rfl⟩ | ⟨hne, hold⟩
      · exact absurd rfl hjk
      · exact (hnew k z e e' hne hold hopy hopz he he').symm
    · rcases hget hk with ⟨rfl, rfl⟩ | ⟨-, hold'⟩
      · exact hnew j y e' e hne hold hopz hopy he' he
      · exact h.apart j k y z e e' hjk hold hold' hopy hopz he he'

theorem Sound.work (h : Sound w s) {i : Nat} {x : Writer} {stage : WriteStage} {s₁ : LeaderServer}
    (hi : s.writers[i]? = some x) (hcareful : s.Careful w (.work i)) (hcalls : x.stage.locks = true → s.calls = [])
    (hw : s.write w cfg x.req x.stage = some (stage, s₁)) :
    Sound w { s₁ with writers := s.writers.set i { x with stage := stage } } := by
  have hx : x ∈ s.writers := List.mem_of_getElem? hi
  have hs₁ : Sound w s₁ ∧ s₁.writers = s.writers := by
    rcases write_forward h.order.leads hw with rfl | ⟨hlocks, raft, rfl, hf⟩
    · exact ⟨h, rfl⟩
    · exact ⟨h.lock (hcalls hlocks) hf, rfl⟩
  obtain ⟨hs₁, hwriters⟩ := hs₁
  have htrack (hop : x.req.op = .allocateBlock) : OnTrack w s₁ { x with stage := stage } :=
    (h.track x hx hop).write h.order h.hands hop (h.sendable x hx) hi hcareful hcalls hw
  rw [← hwriters]
  refine hs₁.set (hwriters ▸ hi) htrack ?_
  rcases write_entry hw with hsame | ⟨command, e, hstage, he, hindex⟩
  · exact .inl hsame
  · refine .inr ⟨e, he, ?_⟩
    intro hop y hy hop' e' he'
    rw [hwriters] at hy
    have hcare := hcareful x hi hop
    rw [hstage] at hcare
    have hle : e'.index ≤ (back s.raft.log).index := by
      rcases Nat.lt_or_ge s.raft.commitIndex e'.index with hlt | hge
      · exact h.order.leads.sorted.le_back (List.mem_of_find?_eq_some ((h.track y hy hop').pending e' he' hlt))
      · exact hge.trans hcare
    omega

/-- A request that has just come in has done nothing yet. -/
theorem onTrack_accepted (req : NameNodeRequest) : OnTrack w s { req := req } := by
  refine ⟨?_, ?_, ?_, ?_, ?_, ?_, ?_⟩
  · exact fun _ he => nomatch he
  · exact fun _ he => nomatch he
  · exact fun _ he => nomatch he
  · exact fun _ he => nomatch he
  · exact fun _ he => nomatch he
  · exact fun _ _ he => nomatch he
  · exact fun _ _ he => nomatch he

theorem Sound.accept {req : NameNodeRequest} (h : Sound w s) (hreq : Sendable w req) :
    Sound w { s with writers := s.writers ++ [{ req := req }] } := by
  have hget {j : Nat} {y : Writer} {e : LogEntry} (hy : (s.writers ++ [{ req := req }])[j]? = some y)
      (he : y.stage.entry = some e) : s.writers[j]? = some y := by
    rw [List.getElem?_append] at hy
    split at hy
    next => exact hy
    next =>
      obtain rfl := List.mem_singleton.mp (List.mem_of_getElem? hy)
      cases he
  refine ⟨⟨h.order.leads, h.order.captured, h.order.increasing, h.order.committed⟩,
    h.hands.of_core rfl rfl fun _ => rfl, ?_, ?_, ?_⟩
  · intro y hy
    rcases List.mem_append.mp hy with hy | hy
    · exact h.sendable y hy
    · rw [List.mem_singleton.mp hy]
      exact hreq
  · intro y hy hop
    rcases List.mem_append.mp hy with hy | hy
    · exact (h.track y hy hop).congr rfl rfl rfl
    · rw [List.mem_singleton.mp hy]
      exact onTrack_accepted req
  · intro i j x y e e' hij hx hy hopx hopy he he'
    exact h.apart i j x y e e' hij (hget hx he) (hget hy he') hopx hopy he he'

theorem Sound.capture {data : Bytes} {snap : SnapshotMetadata} (h : Sound w s)
    (hsnap : s.raft.captureSnapshot data = some snap) : Sound w { s with captured := s.captured ++ [snap] } := by
  refine h.frame rfl ⟨h.order.leads, ?_, h.order.increasing, h.order.committed⟩
    (h.hands.of_core rfl rfl fun _ => rfl) ?_
  · intro snap' hmem
    rcases List.mem_append.mp hmem with hmem | hmem
    · exact h.order.captured snap' hmem
    · rw [List.mem_singleton.mp hmem]
      rw [RaftNode.captureSnapshot, Option.ite_none_left_eq_some] at hsnap
      obtain ⟨-, hsnap⟩ := hsnap
      cases hsnap
      exact h.order.leads.applied.le
  · exact fun x hx hop => (h.track x hx hop).congr rfl rfl rfl

theorem Sound.step {a : LeaderAction} (h : Sound w s) (hcareful : s.Careful w a)
    (hsendable : ∀ req, a = .accept req → Sendable w req) (hs : LeaderServer.step w cfg s a = some s') :
    Sound w s' := by
  cases a with
  | accept req =>
      simp only [LeaderServer.step, Option.ite_none_right_eq_some] at hs
      obtain ⟨-, hs⟩ := hs
      cases hs
      exact h.accept (hsendable req rfl)
  | work i =>
      simp only [LeaderServer.step] at hs
      split at hs
      next => cases hs
      next x hi =>
        simp only [Option.ite_none_left_eq_some, Option.map_eq_some_iff] at hs
        obtain ⟨hlocks, ⟨stage, s₁⟩, hw, rfl⟩ := hs
        refine h.work hi hcareful ?_ hw
        intro hl
        by_contra hne
        exact hlocks ⟨hl, hne⟩
  | timeout i =>
      simp only [LeaderServer.step] at hs
      split at hs
      next req e hi =>
        cases hs
        refine h.set (x := ⟨req, .waiting e⟩) hi ?_ (.inl rfl)
        intro hop
        exact (h.track _ (List.mem_of_getElem? hi) hop).refuse rfl rfl
      next => cases hs
  | apply t =>
      refine h.frame ?_ (h.order.applyCall hs) (h.hands.applyCall h.order hcareful hs) ?_
      · obtain ⟨index, command, rest, -, rfl⟩ := applyCall_eq hs
        rfl
      · exact fun x hx hop => (h.track x hx hop).applyCall hs
  | reply peer resp =>
      simp only [LeaderServer.step, Option.ite_none_right_eq_some] at hs
      obtain ⟨hcalls, hs⟩ := hs
      cases hs
      exact h.lock hcalls (h.order.leads.reply cfg peer resp)
  | vote req =>
      simp only [LeaderServer.step, Option.ite_none_right_eq_some] at hs
      obtain ⟨hcalls, hs⟩ := hs
      cases hs
      exact h.lock hcalls (h.order.leads.vote req)
  | capture data =>
      simp only [LeaderServer.step, Option.ite_none_right_eq_some, Option.map_eq_some_iff] at hs
      obtain ⟨-, snap, hsnap, rfl⟩ := hs
      exact h.capture hsnap
  | trim snap =>
      simp only [LeaderServer.step, Option.ite_none_right_eq_some] at hs
      obtain ⟨⟨hcalls, hmem⟩, hs⟩ := hs
      cases hs
      exact h.lock hcalls (h.order.leads.trimSnapshot (h.order.captured snap hmem))
  | locally e =>
      cases hs
      refine h.frame rfl ⟨h.order.leads, h.order.captured, h.order.increasing, h.order.committed⟩
        (h.hands.of_core rfl ?_ ?_) ?_
      · simp only [NameNode.blockManager_locally]
      · intro p
        simp only [NameNode.lastBlock_eq, NameNode.files_locally]
      · exact fun x hx hop => (h.track x hx hop).congr rfl rfl rfl

theorem InOrder.unique (h : InOrder s) {call call' : ApplyCall} (hc : call ∈ s.applied) (hc' : call' ∈ s.applied)
    (hindex : call.index = call'.index) : call = call' := by
  have hnodup : (s.applied.map ApplyCall.index).Nodup :=
    (List.pairwise_append.mp h.increasing).1.imp Nat.ne_of_lt
  exact List.inj_on_of_nodup_map hnodup hc hc' hindex

theorem HandsOut.ids_ne (h : HandsOut s) {call call' : ApplyCall} (hc : call ∈ s.applied) (hc' : call' ∈ s.applied)
    (hindex : call.index ≠ call'.index) {block block' : BlockInfo} (hb : call.block = some block)
    (hb' : call'.block = some block') : block.blockId ≠ block'.blockId := by
  have hids := (List.pairwise_filterMap.mp h.ids).imp (S := fun call call' => call.index ≠ call'.index →
      ∀ block block', call.block = some block → call'.block = some block' → block.blockId ≠ block'.blockId) ?_
  · refine List.Pairwise.forall_of_forall_of_flip ?_ hids (hids.imp ?_) hc hc' hindex block block' hb hb'
    · exact fun a _ hne => absurd rfl hne
    · exact fun hab hne x y hx hy => (hab hne.symm y x hy hx).symm
  · intro a b hab _ x y hx hy
    exact (UInt64.ne_of_lt (hab x.blockId (by rw [hx]; rfl) y.blockId (by rw [hy]; rfl)))

/-- Along a careful run the answer to an allocation carries the block that ApplyAllocateBlock allocated for the entry of
that very request; no two answers carry one id, and a request that got no block gets no success. -/
theorem own_blocks (w : Wire NameNodeRequest) (cfg : RaftConfig) (core : NameNode) (raft : RaftNode)
    (acts : List LeaderAction) (s : LeaderServer) (hleads : Leads raft)
    (hacts : ∀ req, .accept req ∈ acts → Sendable w req)
    (hrun : Runs.Run (LeaderServer.step w cfg) (Careful w) { core := core, raft := raft } acts s) :
    (∀ x ∈ s.writers, x.req.op = .allocateBlock → ∀ entry resp, x.stage = .done entry resp → resp.success = true →
      ∃ e, entry = some e ∧ ∃ block : BlockInfo, ⟨e.index, x.req, some block⟩ ∈ s.applied ∧
        resp.allocateBlock.map AllocateBlockResponse.blockId = some block.blockId) ∧
    (∀ (i j : Nat) (x y : Writer) (entry entry' : Option LogEntry) (resp resp' : NameNodeResponse), i ≠ j →
      s.writers[i]? = some x → s.writers[j]? = some y → x.req.op = .allocateBlock → y.req.op = .allocateBlock →
      x.stage = .done entry resp → y.stage = .done entry' resp' →
      resp.success = true → resp'.success = true →
      resp.allocateBlock.map AllocateBlockResponse.blockId ≠ resp'.allocateBlock.map AllocateBlockResponse.blockId) ∧
    ∀ x ∈ s.writers, x.req.op = .allocateBlock → ∀ e resp, x.stage = .done (some e) resp →
      ⟨e.index, x.req, none⟩ ∈ s.applied → resp.success = false := by
  have hstart : Sound w { core := core, raft := raft } := by
    refine ⟨⟨hleads, ?_, List.Pairwise.nil, ?_⟩, ⟨List.Pairwise.nil, ?_, ?_⟩, ?_, ?_, ?_⟩
    · exact fun snap hsnap => nomatch hsnap
    · exact fun i hi => nomatch hi
    · exact fun call hcall => nomatch hcall
    · exact fun call hcall => nomatch hcall
    · exact fun x hx => nomatch hx
    · exact fun x hx => nomatch hx
    · exact fun i j x y e e' _ hx => nomatch hx
  have hsendable : ∀ a ∈ acts, ∀ req, a = .accept req → Sendable w req := by
    rintro a ha req rfl
    exact hacts req ha
  have hsound : Sound w s := by
    refine Runs.Run.invariant ?_ hstart (hrun.with_mem hsendable)
    exact fun s a s' h hguard hs => h.step hguard.1 hguard.2 hs
  have htold := fun x hx hop => (hsound.track x hx hop).told
  refine ⟨htold, ?_, ?_⟩
  · intro i j x y entry entry' resp resp' hij hi hj hopx hopy hx hy hok hok'
    obtain ⟨e, rfl, block, hblock, hid⟩ := htold x (List.mem_of_getElem? hi) hopx entry resp hx hok
    obtain ⟨e', rfl, block', hblock', hid'⟩ := htold y (List.mem_of_getElem? hj) hopy entry' resp' hy hok'
    have hne := hsound.apart i j x y e e' hij hi hj hopx hopy (by rw [hx]; rfl) (by rw [hy]; rfl)
    rw [hid, hid']
    intro heq
    exact hsound.hands.ids_ne hblock hblock' hne rfl rfl (Option.some.inj heq)
  · intro x hx hop e resp hstage hnone
    by_contra hok
    obtain ⟨e', he, block, hblock, -⟩ := htold x hx hop (some e) resp hstage (Bool.eq_true_of_not_eq_false hok)
    obtain rfl := Option.some.inj he
    have hcall := hsound.order.unique hnone hblock rfl
    cases hcall

instance decidableFor (call : ApplyCall) (path : FilePath) : Decidable (call.For path) :=
  match hreq : call.req with
  | none => .isFalse fun ⟨req, h, _⟩ => Option.some_ne_none req (h.symm.trans hreq)
  | some req => decidable_of_iff (req.op = .allocateBlock ∧ req.allocPath = path)
      ⟨fun h => ⟨req, hreq, h⟩, fun ⟨_, h, h'⟩ => Option.some.inj (h.symm.trans hreq) ▸ h'⟩

instance decidableUsable (n : NameNode) : Decidable n.Usable :=
  decidable_of_iff (n.chosenBlock ⟨0, .sorted⟩ ≠ none) ((not_congr n.chosenBlock_eq_none).trans not_not)

instance decidableCareful (w : Wire NameNodeRequest) (s : LeaderServer) (a : LeaderAction) :
    Decidable (s.Careful w a) :=
  match a with
  | .work i =>
      match hi : s.writers[i]? with
      | none => .isTrue fun x h => absurd (h.symm.trans hi) (Option.some_ne_none x)
      | some ⟨req, .propose _⟩ =>
          decidable_of_iff (req.op = .allocateBlock → s.raft.commitIndex ≤ (back s.raft.log).index)
          ⟨fun h _ h' => Option.some.inj (hi.symm.trans h') ▸ h, fun h => h _ hi⟩
      | some ⟨req, .readFile entry⟩ => decidable_of_iff (req.op = .allocateBlock →
            ∀ call ∈ s.applied, entry.index < call.index → ¬ call.For req.allocPath)
          ⟨fun h _ h' => Option.some.inj (hi.symm.trans h') ▸ h, fun h => h _ hi⟩
      | some ⟨_, .checkLeader⟩ | some ⟨_, .advance _⟩ | some ⟨_, .waiting _⟩ | some ⟨_, .readBlock _ _⟩
      | some ⟨_, .done _ _⟩ => .isTrue fun _ h _ => Option.some.inj (hi.symm.trans h) ▸ trivial
  | .apply _ =>
      match hcalls : s.calls with
      | [] => .isTrue fun _ _ _ h => nomatch hcalls.symm.trans h
      | (index, command) :: rest =>
          match hparse : w.parse command with
          | none => .isTrue fun _ _ _ h req hreq => by
              cases hcalls.symm.trans h
              exact absurd (hreq.symm.trans hparse) (Option.some_ne_none req)
          | some req => decidable_of_iff (req.op = .allocateBlock →
                (s.core.lastBlock req.allocPath ≠ none → s.core.Usable) ∧ s.core.blockManager.nextBlockId + 1 ≠ 0)
              ⟨fun h _ _ _ h' req' hreq => by
                cases hcalls.symm.trans h'
                exact Option.some.inj (hparse.symm.trans hreq) ▸ h,
              fun h => h index command rest hcalls req hparse⟩
  | .accept _ | .timeout _ | .reply _ _ | .vote _ | .capture _ | .trim _ | .locally _ => .isTrue trivial

/-- One DataNode, and a file that has no blocks yet. -/
def withA : NameNode := ((({} : NameNode).handle registerD ⟨1, .sorted⟩).2.handle createA ⟨2, .sorted⟩).2

def config : RaftConfig := ⟨text "n", [text "n"]⟩

theorem own_blocks_alone : ∃ s : LeaderServer, ∃ x ∈ s.writers, ∃ entry resp, x.stage = .done entry resp ∧
    resp.success = true ∧ ∃ e, entry = some e ∧ ∃ block : BlockInfo, ⟨e.index, x.req, some block⟩ ∈ s.applied ∧
      resp.allocateBlock.map AllocateBlockResponse.blockId = some block.blockId := by
  obtain ⟨s, hrun, hs⟩ := Runs.exists_run_of_exec (LeaderServer.step requestWire config) (Careful requestWire)
    { core := withA, raft := (HANameNodeServer.alone (text "n")).raft }
    [.accept allocateA, .work 0, .work 0, .work 0, .apply ⟨3, .sorted⟩, .work 0, .work 0, .work 0]
    (fun s => s.writers.any fun x => match x.stage with
      | .done _ resp => resp.success && x.req.op == .allocateBlock
      | _ => false) (by decide)
  obtain ⟨x, hx, hx'⟩ := List.any_eq_true.mp hs
  split at hx'
  next entry resp hstage =>
    rw [Bool.and_eq_true, beq_iff_eq] at hx'
    refine ⟨s, x, hx, entry, resp, hstage, hx'.1, ?_⟩
    refine (own_blocks requestWire config withA _ _ s ⟨rfl, ?_, rfl⟩ ?_ hrun).1 x hx hx'.2 entry resp hstage hx'.1
    · exact List.pairwise_singleton _ _
    · intro req hreq
      obtain rfl : req = allocateA := by simpa using hreq
      exact ⟨_, rfl, rfl, by decide⟩
  next => cases hx'

/-- The entry and the block of an answer that says success. -/
def outcome (x : Writer) : Option Nat × Option BlockId :=
  match x.stage with
  | .done entry resp => (entry.map LogEntry.index,
      if resp.success then resp.allocateBlock.map AllocateBlockResponse.blockId else none)
  | _ => (none, none)

/-- Two allocations for one file are applied before either answer is made: both answers carry the id of the second. -/
theorem allocations_share_block : ∃ acts, ∃ s : LeaderServer,
    Runs.Run (LeaderServer.step requestWire config) (fun _ _ => True)
      { core := withA, raft := (HANameNodeServer.alone (text "n")).raft } acts s ∧
      s.writers.all (fun x => x.req.op == .allocateBlock) = true ∧
      s.applied.map (fun call => (call.index, call.block.map BlockInfo.blockId)) = [(1, some 1), (2, some 2)] ∧
      s.writers.map outcome = [(some 1, some 2), (some 2, some 2)] := by
  obtain ⟨s, hrun, hs⟩ := Runs.exists_run_of_exec (LeaderServer.step requestWire config) (fun _ _ => True)
    { core := withA, raft := (HANameNodeServer.alone (text "n")).raft }
    [.accept allocateA, .accept allocateA, .work 0, .work 0, .work 0, .apply ⟨3, .sorted⟩,
      .work 1, .work 1, .work 1, .apply ⟨3, .sorted⟩, .work 0, .work 0, .work 0, .work 1, .work 1, .work 1]
    (fun s => s.writers.all (fun x => x.req.op == .allocateBlock) &&
      decide (s.applied.map (fun call => (call.index, call.block.map BlockInfo.blockId)) =
        [(1, some 1), (2, some 2)]) &&
      decide (s.writers.map outcome = [(some 1, some 2), (some 2, some 2)])) (by decide)
  rw [Bool.and_eq_true, Bool.and_eq_true, decide_eq_true_eq, decide_eq_true_eq] at hs
  exact ⟨_, s, hrun, hs.1.1, hs.1.2, hs.2⟩

end LeaderServer

end MiniStorage.Namenode
