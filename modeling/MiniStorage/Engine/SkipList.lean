import MiniStorage.Engine.MemTable
import Mathlib.Data.List.Forall2

namespace MiniStorage.Engine

open Chains

namespace MemTable

/-- A Put, with what RandomLevel returns if it is asked, or a Clear. -/
inductive Call
  | put (key value : Bytes) (newLevel : Height)
  | clear

def call (m : MemTable) : Call → Option MemTable
  | .put key value newLevel => m.put key value newLevel
  | .clear => m.clear

/-- The value last put under the key once this call is made. -/
def Call.last (key : Bytes) (last : Option Bytes) : Call → Option Bytes
  | .put k value _ => if key = k then some value else last
  | .clear => none

/-- The value last put under the key since the last Clear. -/
def lastPut (key : Bytes) (calls : List Call) : Option Bytes := calls.foldl (Call.last key) none

/-- The nodes that one level links from `cur` on, for at most so many of them. -/
def walkLevel (m : MemTable) (i : Nat) : Nat → Option Nat → Option (List (Nat × SkipListNode))
  | _, none => some []
  | 0, some _ => none
  | fuel + 1, some cur => do
      let n ← m.heap cur
      let rest ← walkLevel m i fuel (← nextAt m.heap i cur)
      return (cur, n) :: rest

/-- The list of one level. -/
def levelNodes (m : MemTable) (i : Nat) : Option (List (Nat × SkipListNode)) := do
  walkLevel m i m.count (← nextAt m.heap i m.head)

/-- Each key and value the iterator yields. -/
def entries (m : MemTable) : Option (List (Bytes × Bytes)) :=
  m.forEach (fun es key value => some (es ++ [(key, value)])) []

/-- The table is a sorted map with these values, on every level and in its counters. -/
structure IsSortedMap (m : MemTable) (value : Bytes → Option Bytes) : Prop where
  levels : ∀ i < maxLevel, ∃ nodes, m.levelNodes i = some nodes ∧ nodes.Pairwise (fun p q => p.2.key < q.2.key) ∧
    ∀ a n, (a, n) ∈ nodes ↔ a ≠ m.head ∧ m.heap a = some n ∧ i < n.next.length
  height_le : ∀ a n, a ≠ m.head → m.heap a = some n → n.next.length ≤ m.levelCount
  get_eq : ∀ key, m.get key = some (value key)
  iterates : ∃ es, m.entries = some es ∧ es.Pairwise (fun p q => p.1 < q.1) ∧ (∀ k v, (k, v) ∈ es ↔ value k = some v) ∧
    m.count = es.length ∧ m.size = (es.map (fun p => p.1.length + p.2.length)).sum

variable {m : MemTable} {slots : List Slot}

/-- A slot with the node at its address. -/
def Slot.node (m : MemTable) (s : Slot) : Option (Nat × SkipListNode) := (m.heap s.addr).map (fun n => (s.addr, n))

theorem walkLevel_eq {i a fuel : Nat} (hp : Path (ptr m.heap i) a (slots.map Slot.addr))
    (hs : ∀ s ∈ slots, s.Stored m.heap ∧ i < s.height) (hf : slots.length ≤ fuel) :
    m.walkLevel i fuel (ptr m.heap i a) = some (slots.filterMap (Slot.node m)) := by
  induction slots generalizing a fuel with
  | nil =>
      have hnone : ptr m.heap i a = none := hp
      rw [hnone]
      cases fuel <;> rfl
  | cons s slots ih =>
      obtain ⟨fuel, rfl⟩ := Nat.exists_eq_succ_of_ne_zero (Nat.ne_of_gt (lt_of_lt_of_le (Nat.succ_pos _) hf))
      obtain ⟨hstored, hheight⟩ := hs s List.mem_cons_self
      obtain ⟨n, hn, -⟩ := heap_of_shape hstored
      have hsome : ptr m.heap i a = some s.addr := hp.1
      have hnode : Slot.node m s = some (s.addr, n) := by rw [Slot.node, hn, Option.map_some]
      have hrest := ih hp.2 (fun t ht => hs t (List.mem_cons_of_mem _ ht)) (Nat.le_of_succ_le_succ hf)
      rw [hsome, List.filterMap_cons_some hnode]
      simp only [walkLevel, hn, nextAt_eq hstored hheight, hrest, Option.bind_eq_bind, Option.bind_some,
        Option.pure_def]

theorem Holds.levelNodes_eq (h : m.Holds slots) {i : Nat} (hi : i < maxLevel) :
    m.levelNodes i = some ((level i slots).filterMap (Slot.node m)) := by
  obtain ⟨k, v, hk⟩ := h.head_eq
  have hlen : (level i slots).length ≤ m.count := by
    rw [h.count_eq]
    exact List.length_filter_le ..
  rw [levelNodes, nextAt_eq hk hi]
  apply walkLevel_eq (h.path i hi) _ hlen
  intro s hs
  obtain ⟨hmem, hlt⟩ := List.mem_filter.mp hs
  exact ⟨h.stored s hmem, of_decide_eq_true hlt⟩

theorem Holds.node_eq (h : m.Holds slots) {s : Slot} (hs : s ∈ slots) :
    ∃ n, m.heap s.addr = some n ∧ n.key = s.key ∧ n.next.length = s.height := by
  obtain ⟨n, hn, hk, -, hl⟩ := heap_of_shape (h.stored s hs)
  exact ⟨n, hn, hk, hl⟩

/-- A node other than the head is in the list of level 0. -/
theorem Holds.exists_slot (h : m.Holds slots) (ho : m.Owns slots) {a : Nat} {n : SkipListNode} (ha : a ≠ m.head)
    (hn : m.heap a = some n) : ∃ s ∈ slots, s.addr = a ∧ n.next.length = s.height := by
  have hmem : a ∈ m.head :: slots.map Slot.addr := ho a (by simp [shape, hn])
  rcases List.mem_cons.mp hmem with he | hmem
  · exact absurd he ha
  · obtain ⟨s, hs, rfl⟩ := List.mem_map.mp hmem
    obtain ⟨n', hn', -, hl⟩ := h.node_eq hs
    obtain rfl := Option.some.inj (hn.symm.trans hn')
    exact ⟨s, hs, rfl, hl⟩

theorem Holds.levels_sorted (h : m.Holds slots) (i : Nat) :
    ((level i slots).filterMap (Slot.node m)).Pairwise (fun p q => p.2.key < q.2.key) := by
  rw [List.pairwise_filterMap]
  refine (h.ascending.sublist List.filter_sublist).imp_of_mem ?_
  intro s t hs ht hlt p hp q hq
  obtain ⟨n, hn, hk, -⟩ := h.node_eq (level_subset i slots hs)
  obtain ⟨n', hn', hk', -⟩ := h.node_eq (level_subset i slots ht)
  rw [Slot.node, hn] at hp
  rw [Slot.node, hn'] at hq
  obtain rfl := Option.some.inj hp
  obtain rfl := Option.some.inj hq
  rw [hk, hk']
  exact hlt

theorem Holds.mem_level (h : m.Holds slots) (ho : m.Owns slots) (i a : Nat) (n : SkipListNode) :
    (a, n) ∈ (level i slots).filterMap (Slot.node m) ↔ a ≠ m.head ∧ m.heap a = some n ∧ i < n.next.length := by
  rw [List.mem_filterMap]
  constructor
  · rintro ⟨s, hs, he⟩
    obtain ⟨hmem, hlt⟩ := List.mem_filter.mp hs
    obtain ⟨n', hn', -, hl⟩ := h.node_eq hmem
    rw [Slot.node, hn'] at he
    obtain ⟨rfl, rfl⟩ := Prod.mk.inj (Option.some.inj he)
    refine ⟨?_, hn', hl ▸ of_decide_eq_true hlt⟩
    intro hhead
    exact (List.nodup_cons.mp h.nodup).1 (hhead ▸ List.mem_map_of_mem hmem)
  · rintro ⟨ha, hn, hlt⟩
    obtain ⟨s, hs, rfl, hl⟩ := h.exists_slot ho ha hn
    refine ⟨s, List.mem_filter.mpr ⟨hs, decide_eq_true (hl ▸ hlt)⟩, ?_⟩
    rw [Slot.node, hn, Option.map_some]

theorem Holds.isSortedMap (h : m.Holds slots) (ho : m.Owns slots) {kvs : SortedMap Bytes Bytes}
    (hp : pairs slots = kvs.entries) {value : Bytes → Option Bytes} (hv : ∀ key, kvs.find key = value key) :
    m.IsSortedMap value := by
  have hmaps : m.Maps kvs := ⟨slots, h, hp⟩
  constructor
  · intro i hi
    exact ⟨_, h.levelNodes_eq hi, h.levels_sorted i, h.mem_level ho i⟩
  · intro a n ha hn
    obtain ⟨s, hs, -, hl⟩ := h.exists_slot ho ha hn
    rw [hl]
    exact (h.heights s hs).2
  · intro key
    rw [hmaps.get, hv]
  · have hcollect (es ps : List (Bytes × Bytes)) :
        ps.foldlM (fun es p => some (es ++ [(p.1, p.2)])) es = some (es ++ ps) := by
      induction ps generalizing es with
      | nil => simp
      | cons p ps ih => simp [ih]
    refine ⟨kvs.entries, ?_, kvs.ascending, ?_, ?_, hmaps.size⟩
    · rw [entries, hmaps.forEach]
      exact hcollect [] kvs.entries
    · intro k v
      rw [← SortedMap.find_eq_some, hv]
    · rw [h.count_eq, ← hp, pairs, List.length_map]

/-- The map that a call leaves. -/
def Call.apply (kvs : SortedMap Bytes Bytes) : Call → SortedMap Bytes Bytes
  | .put key value _ => kvs.insert key value
  | .clear => .empty

theorem find_apply (key : Bytes) (calls : List Call) (kvs : SortedMap Bytes Bytes) :
    (calls.foldl Call.apply kvs).find key = calls.foldl (Call.last key) (kvs.find key) := by
  induction calls generalizing kvs with
  | nil => rfl
  | cons c calls ih =>
      rw [List.foldl_cons, List.foldl_cons, ih]
      cases c with
      | put k value newLevel => rw [Call.apply, SortedMap.find_insert, Call.last]
      | clear => rfl

/-- Every call comes back and keeps the skip list. -/
theorem Holds.call (h : m.Holds slots) (ho : m.Owns slots) {kvs : SortedMap Bytes Bytes}
    (hp : pairs slots = kvs.entries) (c : Call) :
    ∃ m' slots', m.call c = some m' ∧ m'.Holds slots' ∧ m'.Owns slots' ∧ pairs slots' = (c.apply kvs).entries := by
  cases c with
  | put key value newLevel =>
      obtain ⟨m', slots', hput, hs', hp', ho'⟩ := h.put key value newLevel
      exact ⟨m', slots', hput, hs', ho' ho, by rw [hp', hp]; rfl⟩
  | clear =>
      obtain ⟨m', hclear, hs', ho'⟩ := h.clear
      exact ⟨m', [], hclear, hs', ho' ho, rfl⟩

theorem Holds.calls (h : m.Holds slots) (ho : m.Owns slots) {kvs : SortedMap Bytes Bytes}
    (hp : pairs slots = kvs.entries) (calls : List Call) :
    ∃ m' slots', calls.foldlM MemTable.call m = some m' ∧ m'.Holds slots' ∧ m'.Owns slots' ∧
      pairs slots' = (calls.foldl Call.apply kvs).entries := by
  induction calls generalizing m slots kvs with
  | nil => exact ⟨m, slots, rfl, h, ho, hp⟩
  | cons c calls ih =>
      obtain ⟨m₁, slots₁, hcall, h₁, ho₁, hp₁⟩ := h.call ho hp c
      obtain ⟨m', slots', hrun, h', ho', hp'⟩ := ih h₁ ho₁ hp₁
      refine ⟨m', slots', ?_, h', ho', hp'⟩
      rw [List.foldlM_cons, hcall]
      exact hrun

/-- Whatever RandomLevel returns, the table is the sorted map of what was put last. -/
theorem skip_list_is_sorted_map (calls : List Call) :
    ∃ m, calls.foldlM MemTable.call .create = some m ∧ m.IsSortedMap (fun key => lastPut key calls) := by
  have hempty : pairs [] = (SortedMap.empty : SortedMap Bytes Bytes).entries := rfl
  obtain ⟨m, slots, hrun, h, ho, hp⟩ := Holds.create.calls Owns.create hempty calls
  exact ⟨m, hrun, h.isSortedMap ho hp (fun key => find_apply key calls .empty)⟩

end MemTable

end MiniStorage.Engine
