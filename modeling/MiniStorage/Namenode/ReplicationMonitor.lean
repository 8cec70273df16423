import MiniStorage.FirstVisits
import MiniStorage.Namenode.Managers
import Mathlib.Data.Set.Card

namespace MiniStorage.Namenode

open FirstVisits

structure UnderReplicatedBlock where
  blockId : BlockId
  currentReplicas : Int
  targetReplicas : Int
  existingLocations : List DataNodeId := []
  deadLocations : List DataNodeId := []
deriving DecidableEq, Repr

structure ClusterHealth where
  totalBlocks : Int := 0
  healthyBlocks : Int := 0
  underReplicated : Int := 0
  lostBlocks : Int := 0
  overReplicated : Int := 0
  aliveDatanodes : Int := 0
  deadDatanodes : Int := 0
deriving DecidableEq, Repr

/-- The alive_set of each view. -/
def DataNodeManager.aliveSet (it : Iteration) (m : DataNodeManager) : List DataNodeId :=
  (m.getAliveDataNodes it).map DataNodeInfo.id

/-- The loop over the blocks of all files, each block once. -/
def forBlocks {σ : Type} (files : List FileInfo) (body : σ → BlockId → σ) (s : σ) : σ :=
  (files.foldl (fun acc file => file.blocks.foldl (visit body) acc) ([], s)).2

namespace UnderReplicatedBlock

/-- The loop over the locations and the count after it. -/
def classify (urb : UnderReplicatedBlock) (alive : List DataNodeId) (locations : List DataNodeId) :
    UnderReplicatedBlock :=
  let urb := locations.foldl (fun urb dnId =>
    if dnId ∈ alive then { urb with existingLocations := urb.existingLocations ++ [dnId] }
    else { urb with deadLocations := urb.deadLocations ++ [dnId] }) urb
  { urb with currentReplicas := urb.existingLocations.length }

end UnderReplicatedBlock

namespace MetadataStore

/-- An element before its count is set; `uninit` is what that int holds. -/
def newUrb (uninit : Int) (blockId : BlockId) : UnderReplicatedBlock :=
  { blockId, currentReplicas := uninit, targetReplicas := kReplicationFactor }

def scanBlock (m : MetadataStore) (uninit : Int) (alive : List DataNodeId) (results : List UnderReplicatedBlock)
    (bid : BlockId) : List UnderReplicatedBlock :=
  match m.getBlock bid with
  | none => results
  | some block =>
      let urb := (newUrb uninit bid).classify alive block.locations
      if urb.currentReplicas < urb.targetReplicas then results ++ [urb] else results

/-- `it` is the pass over the DataNodes and `files` the one over the files. -/
def scanUnderReplicated (m : MetadataStore) (dn : DataNodeManager) (uninit : Int) (it files : Iteration) :
    List UnderReplicatedBlock :=
  forBlocks (m.listFiles files []) (m.scanBlock uninit (dn.aliveSet it)) []

def healthOfBlock (m : MetadataStore) (alive : List DataNodeId) (health : ClusterHealth) (bid : BlockId) : ClusterHealth :=
  let health := { health with totalBlocks := health.totalBlocks + 1 }
  match m.getBlock bid with
  | none => health
  | some block =>
      let aliveCount := block.locations.foldl (fun n dnId => if dnId ∈ alive then n + 1 else n) 0
      if aliveCount = 0 then { health with lostBlocks := health.lostBlocks + 1 }
      else if aliveCount < kReplicationFactor then { health with underReplicated := health.underReplicated + 1 }
      else if aliveCount = kReplicationFactor then { health with healthyBlocks := health.healthyBlocks + 1 }
      else { health with overReplicated := health.overReplicated + 1 }

def getClusterHealth (m : MetadataStore) (dn : DataNodeManager) (it files : Iteration) : ClusterHealth :=
  let alive := dn.getAliveDataNodes it
  forBlocks (m.listFiles files []) (m.healthOfBlock (dn.aliveSet it))
    { aliveDatanodes := alive.length, deadDatanodes := dn.nodes.entries.length - alive.length }

end MetadataStore

namespace DataNodeManager

/-- How many of the locations are on an ALIVE DataNode. -/
def aliveCount (dn : DataNodeManager) (locations : List DataNodeId) : Nat :=
  locations.countP fun dnId => dnId ∈ dn.aliveSet .sorted

theorem mem_aliveSet {it : Iteration} {dn : DataNodeManager} {id : DataNodeId} :
    id ∈ dn.aliveSet it ↔ id ∈ dn.aliveSet .sorted :=
  ((dn.getAliveDataNodes_perm it .sorted).map DataNodeInfo.id).mem_iff

end DataNodeManager

variable {m : MetadataStore} {dn : DataNodeManager}

/-- The blocks the views look at, each once. -/
def MetadataStore.visited (m : MetadataStore) (files : Iteration) : List BlockId :=
  fresh [] ((m.listFiles files []).flatMap FileInfo.blocks)

theorem forBlocks_eq {σ : Type} (files : Iteration) (body : σ → BlockId → σ) (s : σ) :
    forBlocks (m.listFiles files []) body s = (m.visited files).foldl body s := by
  rw [forBlocks, ← List.foldl_flatMap, foldl_visit, MetadataStore.visited]

theorem UnderReplicatedBlock.classify_eq (urb : UnderReplicatedBlock) (alive locations : List DataNodeId) :
    urb.classify alive locations =
      { urb with
        currentReplicas := (urb.existingLocations ++ locations.filter (· ∈ alive)).length
        existingLocations := urb.existingLocations ++ locations.filter (· ∈ alive)
        deadLocations := urb.deadLocations ++ locations.filter (· ∉ alive) } := by
  rw [classify]
  induction locations generalizing urb with
  | nil => simp
  | cons dnId locations ih =>
      by_cases h : dnId ∈ alive
      · simp [h, ih]
      · simp [h, ih]

/-- What the views make of a block with an entry. -/
def replicasOf (dn : DataNodeManager) (bid : BlockId) (block : BlockInfo) : UnderReplicatedBlock where
  blockId := bid
  currentReplicas := dn.aliveCount block.locations
  targetReplicas := kReplicationFactor
  existingLocations := block.locations.filter (· ∈ dn.aliveSet .sorted)
  deadLocations := block.locations.filter (· ∉ dn.aliveSet .sorted)

namespace MetadataStore

/-- The element of a block with fewer ALIVE locations than it is to have. -/
def needing (m : MetadataStore) (dn : DataNodeManager) (bid : BlockId) : Option UnderReplicatedBlock :=
  (m.getBlock bid).bind fun block =>
    if dn.aliveCount block.locations < kReplicationFactor then some (replicasOf dn bid block) else none

theorem classify_newUrb (dn : DataNodeManager) (uninit : Int) (it : Iteration) (bid : BlockId) (block : BlockInfo) :
    (newUrb uninit bid).classify (dn.aliveSet it) block.locations = replicasOf dn bid block := by
  have hin : block.locations.filter (· ∈ dn.aliveSet it) = block.locations.filter (· ∈ dn.aliveSet .sorted) :=
    List.filter_congr fun dnId _ => by simp only [@DataNodeManager.mem_aliveSet it]
  have hout : block.locations.filter (· ∉ dn.aliveSet it) = block.locations.filter (· ∉ dn.aliveSet .sorted) :=
    List.filter_congr fun dnId _ => by simp only [@DataNodeManager.mem_aliveSet it]
  rw [UnderReplicatedBlock.classify_eq, newUrb, replicasOf, hin, hout, DataNodeManager.aliveCount,
    List.countP_eq_length_filter]
  rfl

theorem scanBlock_eq (uninit : Int) (it : Iteration) (results : List UnderReplicatedBlock) (bid : BlockId) :
    m.scanBlock uninit (dn.aliveSet it) results bid = results ++ (m.needing dn bid).toList := by
  rw [scanBlock, needing]
  cases m.getBlock bid with
  | none => exact (List.append_nil results).symm
  | some block =>
      simp only [classify_newUrb, Option.bind_some, replicasOf, Int.ofNat_lt]
      split
      · rfl
      · exact (List.append_nil results).symm

theorem scanUnderReplicated_eq (uninit : Int) (it files : Iteration) :
    m.scanUnderReplicated dn uninit it files = (m.visited files).filterMap (m.needing dn) := by
  have hloop : ∀ (bids : List BlockId) (results : List UnderReplicatedBlock),
      bids.foldl (m.scanBlock uninit (dn.aliveSet it)) results = results ++ bids.filterMap (m.needing dn) := by
    intro bids
    induction bids with
    | nil => exact fun results => (List.append_nil results).symm
    | cons bid bids ih =>
        intro results
        rw [List.foldl_cons, scanBlock_eq, ih, List.append_assoc, List.filterMap_cons]
        cases m.needing dn bid <;> rfl
  rw [scanUnderReplicated, forBlocks_eq, hloop, List.nil_append]

theorem mem_visited {files : Iteration} {b : BlockId} : b ∈ m.visited files ↔ m.Lists b := by
  rw [visited, mem_fresh, List.mem_flatMap, Lists]
  constructor
  · rintro ⟨⟨f, hf, hb⟩, -⟩
    obtain ⟨path, hpath⟩ := m.mem_listFiles.mp hf
    exact ⟨path, f, hpath, hb⟩
  · rintro ⟨path, f, hf, hb⟩
    exact ⟨⟨f, m.mem_listFiles.mpr ⟨path, hf⟩, hb⟩, List.not_mem_nil⟩

theorem nodup_visited (m : MetadataStore) (files : Iteration) : (m.visited files).Nodup := nodup_fresh _ _

theorem needing_eq_some {b : BlockId} {urb : UnderReplicatedBlock} :
    m.needing dn b = some urb ↔
      ∃ block, m.getBlock b = some block ∧ dn.aliveCount block.locations < kReplicationFactor ∧
        urb = replicasOf dn b block := by
  simp only [needing, Option.bind_eq_some_iff, Option.ite_none_right_eq_some, Option.some.injEq, eq_comm (b := urb)]

/-- An element of the scan belongs to a listed block. -/
theorem mem_scanUnderReplicated {uninit : Int} {it files : Iteration} {urb : UnderReplicatedBlock} :
    urb ∈ m.scanUnderReplicated dn uninit it files ↔ m.Lists urb.blockId ∧ m.needing dn urb.blockId = some urb := by
  rw [scanUnderReplicated_eq, List.mem_filterMap]
  constructor
  · rintro ⟨b, hb, hurb⟩
    obtain ⟨block, -, -, rfl⟩ := needing_eq_some.mp hurb
    exact ⟨mem_visited.mp hb, hurb⟩
  · rintro ⟨hlists, hurb⟩
    exact ⟨urb.blockId, mem_visited.mpr hlists, hurb⟩

theorem nodup_scanUnderReplicated (m : MetadataStore) (dn : DataNodeManager) (uninit : Int) (it files : Iteration) :
    ((m.scanUnderReplicated dn uninit it files).map UnderReplicatedBlock.blockId).Nodup := by
  have hids : ∀ bids : List BlockId,
      ((bids.filterMap (m.needing dn)).map UnderReplicatedBlock.blockId).Sublist bids := by
    intro bids
    induction bids with
    | nil => exact .slnil
    | cons b bids ih =>
        rw [List.filterMap_cons]
        cases hurb : m.needing dn b with
        | none => exact ih.cons b
        | some urb =>
            obtain ⟨block, -, -, rfl⟩ := needing_eq_some.mp hurb
            exact ih.cons_cons b
  rw [scanUnderReplicated_eq]
  exact (m.nodup_visited files).sublist (hids _)

end MetadataStore

end MiniStorage.Namenode
