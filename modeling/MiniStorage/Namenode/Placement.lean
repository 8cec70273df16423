import MiniStorage.Namenode.Managers
import MiniStorage.RoundRobin

namespace MiniStorage.Namenode.BlockManager

open RoundRobin

/-- Calls of AllocateBlock one after the other; `none` when one of them throws. -/
def allocateBlocks (availableNodes : List DataNodeInfo) : Nat → BlockManager → Option (List BlockInfo × BlockManager)
  | 0, m => some ([], m)
  | k + 1, m =>
      (m.allocateBlock availableNodes).bind fun (block, m) =>
        (allocateBlocks availableNodes k m).map fun (blocks, m) => (block :: blocks, m)

variable {nodes : List DataNodeInfo} {m : BlockManager}

/-- The ids of the nodes a block may go to. -/
def usableIds (nodes : List DataNodeInfo) : List DataNodeId := (usable nodes).map DataNodeInfo.id

theorem mem_usable {dn : DataNodeInfo} :
    dn ∈ usable nodes ↔ dn ∈ nodes ∧ dn.status = .alive ∧ kBlockSize ≤ dn.freeSpace := by
  simp [usable, ge_iff_le]

theorem nodup_usableIds (h : (nodes.map DataNodeInfo.id).Nodup) : (usableIds nodes).Nodup :=
  h.sublist ((List.filter_sublist (l := nodes)).map _)

theorem length_usableIds (nodes : List DataNodeInfo) : (usableIds nodes).length = (usable nodes).length :=
  List.length_map ..

theorem usableIds_ne_nil (h : usable nodes ≠ []) : usableIds nodes ≠ [] := by
  rwa [usableIds, ne_eq, List.map_eq_nil_iff]

theorem selectDataNodes_eq (m : BlockManager) (available : List DataNodeInfo) (n : Nat) :
    m.selectDataNodes available n =
      (walk (available.map DataNodeInfo.id) m.roundRobinIndex n,
        { m with roundRobinIndex := (m.roundRobinIndex + n) % available.length }) := by
  rw [selectDataNodes, Nat.mod_add_mod, ← walk_mod, walk, List.length_map]
  simp only [List.getElem?_map]

/-- AllocateBlock goes on with the cursor over the usable nodes. -/
theorem allocateBlock_walk (h : usable nodes ≠ []) (m : BlockManager) :
    ∃ block m', m.allocateBlock nodes = some (block, m') ∧
      block.locations = walk (usableIds nodes) m.roundRobinIndex (min (usable nodes).length kReplicationFactor) ∧
      m'.roundRobinIndex =
        (m.roundRobinIndex + min (usable nodes).length kReplicationFactor) % (usable nodes).length := by
  simp only [allocateBlock, List.isEmpty_iff, if_neg h, selectDataNodes_eq]
  exact ⟨_, _, rfl, rfl, rfl⟩

theorem allocateBlocks_walk (h : usable nodes ≠ []) (k : Nat) (m : BlockManager) :
    ∃ blocks m', allocateBlocks nodes k m = some (blocks, m') ∧ blocks.length = k ∧
      blocks.flatMap BlockInfo.locations =
        walk (usableIds nodes) m.roundRobinIndex (k * min (usable nodes).length kReplicationFactor) := by
  induction k generalizing m with
  | zero => exact ⟨[], m, rfl, rfl, by rw [Nat.zero_mul, walk_zero]; rfl⟩
  | succ k ih =>
      obtain ⟨block, m₁, hblock, hlocations, hcursor⟩ := allocateBlock_walk h m
      obtain ⟨blocks, m₂, hblocks, hlen, hrest⟩ := ih m₁
      refine ⟨block :: blocks, m₂, ?_, by rw [List.length_cons, hlen], ?_⟩
      · simp only [allocateBlocks, hblock, Option.bind_some, hblocks, Option.map_some]
      · rw [List.flatMap_cons, hlocations, hrest, hcursor, ← length_usableIds, walk_mod, walk_append, Nat.succ_mul,
          Nat.add_comm]

/-- AllocateBlock takes as many different usable nodes as a block is to have, or all of them, and over any number of
calls no usable node is taken more than once oftener than another. -/
theorem placement_balanced (hids : (nodes.map DataNodeInfo.id).Nodup) (h : 1 ≤ (usable nodes).length)
    (m : BlockManager) (k : Nat) :
    (∃ block m', m.allocateBlock nodes = some (block, m') ∧
      block.locations.length = min (usable nodes).length 3 ∧ block.locations.Nodup ∧
      ∀ id ∈ block.locations, ∃ dn ∈ nodes, dn.id = id ∧ dn.status = .alive ∧ kBlockSize ≤ dn.freeSpace) ∧
    ∃ blocks m', allocateBlocks nodes k m = some (blocks, m') ∧ blocks.length = k ∧
      ∀ dn ∈ usable nodes, ∀ dn' ∈ usable nodes,
        (blocks.flatMap BlockInfo.locations).count dn.id ≤ (blocks.flatMap BlockInfo.locations).count dn'.id + 1 := by
  have hne : usable nodes ≠ [] := List.ne_nil_of_length_pos h
  have hnodup := nodup_usableIds hids
  constructor
  · obtain ⟨block, m', hblock, hlocations, -⟩ := allocateBlock_walk hne m
    refine ⟨block, m', hblock, ?_, ?_, ?_⟩
    · rw [hlocations, length_walk (usableIds_ne_nil hne)]
      rfl
    · rw [hlocations]
      refine nodup_walk hnodup _ ?_
      rw [length_usableIds]
      exact Nat.min_le_left _ _
    · intro id hid
      rw [hlocations] at hid
      obtain ⟨dn, hdn, rfl⟩ := List.mem_map.mp (mem_of_mem_walk hid)
      obtain ⟨hmem, halive, hfree⟩ := mem_usable.mp hdn
      exact ⟨dn, hmem, rfl, halive, hfree⟩
  · obtain ⟨blocks, m', hblocks, hlen, hlocations⟩ := allocateBlocks_walk hne k m
    refine ⟨blocks, m', hblocks, hlen, ?_⟩
    intro dn hdn dn' hdn'
    rw [hlocations]
    exact count_walk_le hnodup (List.mem_map_of_mem hdn) (List.mem_map_of_mem hdn') _ _

/-- Four usable nodes among six. -/
def sixNodes : List DataNodeInfo :=
  [{ id := text "a", freeSpace := kBlockSize }, { id := text "b", freeSpace := 5 }, { id := text "c", freeSpace := kBlockSize },
    { id := text "d", freeSpace := kBlockSize }, { id := text "e", freeSpace := kBlockSize, status := .dead },
    { id := text "f", freeSpace := kBlockSize + 1 }]

theorem placement_balanced_six :
    (sixNodes.map DataNodeInfo.id).Nodup ∧ 1 ≤ (usable sixNodes).length ∧
      ∃ blocks m', allocateBlocks sixNodes 5 ⟨1, 7⟩ = some (blocks, m') ∧ blocks.length = 5 ∧
        ∀ dn ∈ usable sixNodes, ∀ dn' ∈ usable sixNodes,
          (blocks.flatMap BlockInfo.locations).count dn.id ≤ (blocks.flatMap BlockInfo.locations).count dn'.id + 1 := by
  have hids : (sixNodes.map DataNodeInfo.id).Nodup := by decide
  have husable : 1 ≤ (usable sixNodes).length := by decide
  exact ⟨hids, husable, (placement_balanced hids husable ⟨1, 7⟩ 5).2⟩

end MiniStorage.Namenode.BlockManager
