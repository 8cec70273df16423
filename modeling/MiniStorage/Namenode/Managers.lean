import MiniStorage.Namenode.MetadataStore

namespace MiniStorage.Namenode

/-- What a NameNode knows of its DataNodes. -/
@[ext] structure DataNodeManager where
  nodes : SortedMap DataNodeId DataNodeInfo := .empty

namespace DataNodeManager

/-- `now` is what NowMs returns. -/
def registerDataNode (m : DataNodeManager) (info : DataNodeInfo) (now : Int) : DataNodeManager :=
  ⟨m.nodes.insert info.id { info with status := .alive, lastHeartbeat := now }⟩

def handleHeartbeat (m : DataNodeManager) (id : DataNodeId) (freeSpace : Int) (blockCount : Int32) (now : Int) :
    Bool × DataNodeManager :=
  match m.nodes.find id with
  | none => (false, m)
  | some info =>
      (true, ⟨m.nodes.insert id
        { info with status := .alive, lastHeartbeat := now, freeSpace := freeSpace, blockCount := blockCount }⟩)

def getAliveDataNodes (it : Iteration) (m : DataNodeManager) : List DataNodeInfo :=
  ((it.run m.nodes.entries).map Prod.snd).filter fun info => info.status = .alive

/-- One turn of the loop in CheckDataNodeHealth. -/
def checkHealth (now : Int) (info : DataNodeInfo) : DataNodeInfo :=
  if info.status = .dead then info
  else if now - info.lastHeartbeat > kHeartbeatTimeoutSec * 1000 then { info with status := .dead }
  else if now - info.lastHeartbeat > kHeartbeatTimeoutSec / 3 * 1000 ∧ info.status = .alive then
    { info with status := .suspect }
  else info

def checkDataNodeHealth (m : DataNodeManager) (now : Int) : DataNodeManager := ⟨m.nodes.mapVal (checkHealth now)⟩

theorem getAliveDataNodes_perm (it it' : Iteration) (m : DataNodeManager) :
    (m.getAliveDataNodes it).Perm (m.getAliveDataNodes it') :=
  (((it.perm _).trans (it'.perm _).symm).map _).filter _

/-- Every DataNode has its entry under its own id. -/
def Keyed (m : DataNodeManager) : Prop := ∀ id info, m.nodes.find id = some info → info.id = id

theorem keyed_empty : Keyed {} := by
  intro id info h
  cases h

theorem Keyed.registerDataNode {m : DataNodeManager} (h : m.Keyed) (info : DataNodeInfo) (now : Int) :
    (m.registerDataNode info now).Keyed := by
  intro id info' hfind
  rw [DataNodeManager.registerDataNode, SortedMap.find_insert] at hfind
  split at hfind
  next he =>
    cases hfind
    exact he.symm
  next => exact h id info' hfind

theorem Keyed.handleHeartbeat {m : DataNodeManager} (h : m.Keyed) (id : DataNodeId) (freeSpace : Int) (blockCount : Int32)
    (now : Int) : (m.handleHeartbeat id freeSpace blockCount now).2.Keyed := by
  rw [DataNodeManager.handleHeartbeat]
  cases hold : m.nodes.find id with
  | none => exact h
  | some old =>
      intro id' info hfind
      simp only [SortedMap.find_insert] at hfind
      split at hfind
      next he =>
        cases hfind
        exact (h id old hold).trans he.symm
      next => exact h id' info hfind

theorem Keyed.checkDataNodeHealth {m : DataNodeManager} (h : m.Keyed) (now : Int) : (m.checkDataNodeHealth now).Keyed := by
  intro id info hfind
  rw [DataNodeManager.checkDataNodeHealth, SortedMap.find_mapVal, Option.map_eq_some_iff] at hfind
  obtain ⟨old, hold, rfl⟩ := hfind
  have hid : (checkHealth now old).id = old.id := by
    rw [checkHealth]
    split <;> [rfl; split <;> [rfl; split <;> rfl]]
  exact hid.trans (h id old hold)

theorem mem_getAliveDataNodes {it : Iteration} {m : DataNodeManager} {info : DataNodeInfo} :
    info ∈ m.getAliveDataNodes it ↔ (∃ id, m.nodes.find id = some info) ∧ info.status = .alive := by
  simp only [getAliveDataNodes, List.mem_filter, List.mem_map, it.mem_run, decide_eq_true_eq, SortedMap.find_eq_some]
  constructor
  · rintro ⟨⟨⟨id, i⟩, hi, rfl⟩, ha⟩
    exact ⟨⟨id, hi⟩, ha⟩
  · rintro ⟨⟨id, hi⟩, ha⟩
    exact ⟨⟨(id, info), hi, rfl⟩, ha⟩

end DataNodeManager

theorem lt_add_one_of_no_wrap {a b : BlockId} (h : a + 1 ≠ 0) (hb : b ≤ a) : b < a + 1 := by
  have hne : (a + 1).toNat ≠ 0 := fun h0 => h (UInt64.toNat_inj.mp h0)
  rw [UInt64.toNat_add] at hne
  rw [UInt64.lt_iff_toNat_lt, UInt64.toNat_add]
  rw [UInt64.le_iff_toNat_le] at hb
  have ha := a.toNat_lt
  have h1 : (1 : UInt64).toNat = 1 := rfl
  omega

structure BlockManager where
  nextBlockId : BlockId := 1
  roundRobinIndex : Nat := 0
deriving DecidableEq, Repr

namespace BlockManager

def selectDataNodes (m : BlockManager) (available : List DataNodeInfo) (n : Nat) : List DataNodeId × BlockManager :=
  let sz := available.length
  let start := m.roundRobinIndex % sz
  ((List.range n).filterMap fun i => available[(start + i) % sz]?.map DataNodeInfo.id,
    { m with roundRobinIndex := (start + n) % sz })

/-- The nodes a block may go to. -/
def usable (nodes : List DataNodeInfo) : List DataNodeInfo :=
  nodes.filter fun dn => dn.status = .alive ∧ dn.freeSpace ≥ kBlockSize

/-- `none` when it throws: no DataNode is usable. -/
def allocateBlock (m : BlockManager) (availableNodes : List DataNodeInfo) : Option (BlockInfo × BlockManager) :=
  if (usable availableNodes).isEmpty then none
  else
    let replicas := min (usable availableNodes).length kReplicationFactor
    let (selected, m) := m.selectDataNodes (usable availableNodes) replicas
    some ({ blockId := m.nextBlockId, locations := selected }, { m with nextBlockId := m.nextBlockId + 1 })

theorem allocateBlock_eq_none {m : BlockManager} {nodes : List DataNodeInfo} :
    m.allocateBlock nodes = none ↔ usable nodes = [] := by
  rw [allocateBlock, ← List.isEmpty_iff]
  cases (usable nodes).isEmpty <;> simp

theorem allocateBlock_some {m m' : BlockManager} {nodes : List DataNodeInfo} {block : BlockInfo}
    (h : m.allocateBlock nodes = some (block, m')) :
    usable nodes ≠ [] ∧ block.blockId = m.nextBlockId ∧ block.size = 0 ∧ m'.nextBlockId = m.nextBlockId + 1 ∧
      m'.roundRobinIndex = (m.roundRobinIndex % (usable nodes).length + min (usable nodes).length kReplicationFactor) %
        (usable nodes).length := by
  have hne : usable nodes ≠ [] := by
    intro hnil
    rw [allocateBlock_eq_none.mpr hnil] at h
    cases h
  rw [allocateBlock, if_neg (by simpa using hne)] at h
  obtain ⟨rfl, rfl⟩ := Prod.mk.inj (Option.some.inj h)
  exact ⟨hne, rfl, rfl, rfl, rfl⟩

theorem allocateBlock_congr (m : BlockManager) {nodes nodes' : List DataNodeInfo}
    (h : (usable nodes).map DataNodeInfo.id = (usable nodes').map DataNodeInfo.id) :
    m.allocateBlock nodes = m.allocateBlock nodes' := by
  have hlen : (usable nodes).length = (usable nodes').length := by
    rw [← @List.length_map _ _ (usable nodes) DataNodeInfo.id, h, List.length_map]
  have hget (i : Nat) : (usable nodes)[i]?.map DataNodeInfo.id = (usable nodes')[i]?.map DataNodeInfo.id := by
    rw [← List.getElem?_map, h, List.getElem?_map]
  have hempty : (usable nodes).isEmpty = (usable nodes').isEmpty := by
    rw [Bool.eq_iff_iff, List.isEmpty_iff_length_eq_zero, List.isEmpty_iff_length_eq_zero, hlen]
  simp only [allocateBlock, selectDataNodes, hempty, hlen, hget]

/-- Of the cursor, only its place among the usable nodes counts. -/
theorem allocateBlock_congr_manager {m m' : BlockManager} {nodes : List DataNodeInfo}
    (hnext : m.nextBlockId = m'.nextBlockId)
    (hcursor : m.roundRobinIndex % (usable nodes).length = m'.roundRobinIndex % (usable nodes).length) :
    m.allocateBlock nodes = m'.allocateBlock nodes := by
  simp only [allocateBlock, selectDataNodes, hnext, hcursor]

end BlockManager

end MiniStorage.Namenode
