import MiniStorage.Recency
import MiniStorage.Engine.LruCache

namespace MiniStorage.Engine

open Chains Recency

namespace LRUCache

def call (c : LRUCache) : Recency.Call Bytes BolckData → Option LRUCache
  | .get key => (c.get key).map Prod.snd
  | .insert key data => c.insert key data
  | .clear => c.clear

/-- The nodes met on the way from `cur` to `stop`, for at most so many steps. -/
def walk (c : LRUCache) (link : LruNode → Option Nat) (stop : Nat) : Nat → Nat → Option (List Nat)
  | 0, _ => none
  | fuel + 1, cur => do
      let b ← link (← c.heap cur)
      if b = stop then return [] else return b :: (← walk c link stop fuel b)

/-- The list between the sentinels and cache_map_ hold the same nodes, with these keys and data. -/
def IsRecencyList (c : LRUCache) (l : List (Bytes × BolckData)) : Prop :=
  ∃ nodes, c.walk LruNode.next c.tail (c.fresh + 1) c.head = some nodes ∧
    c.walk LruNode.prev c.head (c.fresh + 1) c.tail = some nodes.reverse ∧
    nodes.map c.content = l.map some ∧ nodes.Nodup ∧
    (∀ key a, c.cacheMap.find key = some a ↔ a ∈ nodes ∧ (c.heap a).map LruNode.key = some key)

variable {c c' : LRUCache}

/-- Only the nodes differ. -/
def SameButHeap (c c' : LRUCache) : Prop := c' = { c with heap := c'.heap }

theorem SameButHeap.trans {c'' : LRUCache} (h : SameButHeap c c') (h' : SameButHeap c' c'') : SameButHeap c c'' := by
  rw [SameButHeap] at h h' ⊢
  rw [h', h]

theorem setNext_some {a : Nat} {v : Option Nat} (h : c.setNext a v = some c') : SameButHeap c c' := by
  obtain ⟨n, -, rfl⟩ := Option.map_eq_some_iff.mp h
  rfl

theorem setPrev_some {a : Nat} {v : Option Nat} (h : c.setPrev a v = some c') : SameButHeap c c' := by
  obtain ⟨n, -, rfl⟩ := Option.map_eq_some_iff.mp h
  rfl

theorem insertToFront_some {node : Nat} (h : c.insertToFront node = some c') : SameButHeap c c' := by
  obtain ⟨_, -, h⟩ := Option.bind_eq_some_iff.mp h
  obtain ⟨c₁, h₁, h⟩ := Option.bind_eq_some_iff.mp h
  obtain ⟨_, -, h⟩ := Option.bind_eq_some_iff.mp h
  obtain ⟨_, -, h⟩ := Option.bind_eq_some_iff.mp h
  obtain ⟨c₂, h₂, h⟩ := Option.bind_eq_some_iff.mp h
  obtain ⟨c₃, h₃, h₄⟩ := Option.bind_eq_some_iff.mp h
  exact (setNext_some h₁).trans ((setPrev_some h₂).trans ((setNext_some h₃).trans (setPrev_some h₄)))

theorem removeFromList_some {node : Nat} (h : c.removeFromList node = some c') : SameButHeap c c' := by
  obtain ⟨_, -, h⟩ := Option.bind_eq_some_iff.mp h
  obtain ⟨_, -, h⟩ := Option.bind_eq_some_iff.mp h
  obtain ⟨c₁, h₁, h⟩ := Option.bind_eq_some_iff.mp h
  obtain ⟨_, -, h⟩ := Option.bind_eq_some_iff.mp h
  obtain ⟨_, -, h⟩ := Option.bind_eq_some_iff.mp h
  obtain ⟨c₂, h₂, h⟩ := Option.bind_eq_some_iff.mp h
  obtain ⟨c₃, h₃, h₄⟩ := Option.bind_eq_some_iff.mp h
  exact (setNext_some h₁).trans ((setPrev_some h₂).trans ((setNext_some h₃).trans (setPrev_some h₄)))

theorem moveToFront_some {node : Nat} (h : c.moveToFront node = some c') : SameButHeap c c' := by
  obtain ⟨c₁, h₁, h₂⟩ := Option.bind_eq_some_iff.mp h
  exact (removeFromList_some h₁).trans (insertToFront_some h₂)

/-- The fields that no list operation touches. -/
structure SameCounters (c c' : LRUCache) : Prop where
  capacity : c'.capacity = c.capacity
  hits : c'.hits = c.hits
  misses : c'.misses = c.misses

theorem SameButHeap.counters (h : SameButHeap c c') : SameCounters c c' := by
  rw [SameButHeap] at h
  constructor <;> rw [h]

theorem SameCounters.trans {c'' : LRUCache} (h : SameCounters c c') (h' : SameCounters c' c'') : SameCounters c c'' :=
  ⟨h'.capacity.trans h.capacity, h'.hits.trans h.hits, h'.misses.trans h.misses⟩

theorem exict_some (h : c.exict = some c') : SameCounters c c' := by
  obtain ⟨t, -, h⟩ := Option.bind_eq_some_iff.mp h
  obtain ⟨lru, -, h⟩ := Option.bind_eq_some_iff.mp h
  split at h
  · obtain rfl := Option.some.inj h
    exact ⟨rfl, rfl, rfl⟩
  · obtain ⟨c₁, h₁, h⟩ := Option.bind_eq_some_iff.mp h
    obtain ⟨n, -, h⟩ := Option.bind_eq_some_iff.mp h
    obtain rfl := Option.some.inj h
    obtain ⟨hcap, hhits, hmisses⟩ := (removeFromList_some h₁).counters
    exact ⟨hcap, hhits, hmisses⟩

theorem get_counters {key : Bytes} {answer : Option BolckData} (h : c.get key = some (answer, c')) :
    c'.capacity = c.capacity ∧ c'.hits + c'.misses = c.hits + c.misses + 1 := by
  unfold get at h
  split at h
  · obtain ⟨-, rfl⟩ := Prod.mk.inj (Option.some.inj h)
    exact ⟨rfl, rfl⟩
  · obtain ⟨c₁, h₁, h⟩ := Option.bind_eq_some_iff.mp h
    obtain ⟨n, -, h⟩ := Option.bind_eq_some_iff.mp h
    obtain ⟨-, rfl⟩ := Prod.mk.inj (Option.some.inj h)
    obtain ⟨hcap, hhits, hmisses⟩ := (moveToFront_some h₁).counters
    refine ⟨hcap, ?_⟩
    dsimp only
    omega

theorem insert_counters {key : Bytes} {data : BolckData} (h : c.insert key data = some c') : SameCounters c c' := by
  unfold insert at h
  split at h
  · obtain ⟨n, -, h⟩ := Option.bind_eq_some_iff.mp h
    obtain ⟨hcap, hhits, hmisses⟩ := (moveToFront_some h).counters
    exact ⟨hcap, hhits, hmisses⟩
  · -- what is done once there is room for the node
    have hnew (c₁ : LRUCache) (h₁ : (do
        let c ← insertToFront { c₁ with
          heap := Function.update c₁.heap c₁.fresh (some { key := key, data := data }), fresh := c₁.fresh + 1 } c₁.fresh
        return { c with cacheMap := c.cacheMap.insert key c₁.fresh }) = some c') : SameCounters c₁ c' := by
      obtain ⟨c₂, h₂, h₁⟩ := Option.bind_eq_some_iff.mp h₁
      obtain rfl := Option.some.inj h₁
      obtain ⟨hcap, hhits, hmisses⟩ := (insertToFront_some h₂).counters
      exact ⟨hcap, hhits, hmisses⟩
    dsimp only at h
    split at h
    · obtain ⟨c₁, h₁, h⟩ := Option.bind_eq_some_iff.mp h
      exact (exict_some h₁).trans (hnew c₁ h)
    · exact hnew c h

theorem clear_counters (h : c.clear = some c') : c'.capacity = c.capacity ∧ c'.hits = 0 ∧ c'.misses = 0 := by
  obtain ⟨_, -, h⟩ := Option.bind_eq_some_iff.mp h
  obtain ⟨_, -, h⟩ := Option.bind_eq_some_iff.mp h
  obtain ⟨_, -, h⟩ := Option.bind_eq_some_iff.mp h
  obtain ⟨c₁, h₁, h⟩ := Option.bind_eq_some_iff.mp h
  obtain ⟨c₂, h₂, h⟩ := Option.bind_eq_some_iff.mp h
  obtain rfl := Option.some.inj h
  exact ⟨((setNext_some h₁).trans (setPrev_some h₂)).counters.capacity, rfl, rfl⟩

theorem walk_eq {link : LruNode → Option Nat} {prev : Nat → Option Nat} {stop a fuel : Nat} {xs : List Nat}
    (h : Linked (fun a => (c.heap a).bind link) prev (a :: (xs ++ [stop]))) (hstop : stop ∉ xs)
    (hf : xs.length < fuel) :
    c.walk link stop fuel a = some xs := by
  induction xs generalizing a fuel with
  | nil =>
      obtain ⟨fuel, rfl⟩ := Nat.exists_eq_succ_of_ne_zero (Nat.ne_of_gt hf)
      obtain ⟨n, hn, hlink⟩ := Option.bind_eq_some_iff.mp h.1
      simp only [walk, hn, hlink, if_true, Option.bind_eq_bind, Option.bind_some, Option.pure_def]
  | cons x xs ih =>
      obtain ⟨fuel, rfl⟩ := Nat.exists_eq_succ_of_ne_zero (Nat.ne_of_gt (lt_of_le_of_lt (Nat.zero_le _) hf))
      obtain ⟨n, hn, hlink⟩ := Option.bind_eq_some_iff.mp h.1
      obtain ⟨hx, hxs⟩ := List.ne_and_not_mem_of_not_mem_cons hstop
      have hrest := ih h.2.2 hxs (Nat.lt_of_succ_lt_succ hf)
      simp only [walk, hn, hlink, Ne.symm hx, if_false, hrest, Option.bind_eq_bind, Option.bind_some, Option.pure_def]

/-- A slot as a pair of the list that the cache stands for. -/
def Slot.pair (s : Slot) : Bytes × BolckData := (s.key, s.data)

variable {slots : List Slot}

theorem Holds.nodup_keys (h : c.Holds slots) : ((slots.map Slot.pair).map Prod.fst).Nodup := by
  have hperm := (h.mapped.map Prod.fst).nodup_iff.mp c.cacheMap.nodup_keys
  rw [List.map_map] at hperm ⊢
  exact hperm

theorem Holds.isRecencyList (h : c.Holds slots) : c.IsRecencyList (slots.map Slot.pair) := by
  have hd := h.nodup
  obtain ⟨hhead, hrest⟩ := List.nodup_cons.mp hd
  have htail : c.tail ∉ slots.map Slot.addr := fun hm => (List.nodup_append.mp hrest).2.2 _ hm _ List.mem_cons_self rfl
  have hhead' : c.head ∉ slots.map Slot.addr := fun hm => hhead (List.mem_append_left _ hm)
  have hback := h.linked.reverse
  rw [List.reverse_cons, List.reverse_append, List.reverse_singleton, List.singleton_append, List.cons_append] at hback
  refine ⟨slots.map Slot.addr, walk_eq h.linked htail h.length_lt, walk_eq hback ?_ ?_, ?_,
    (List.nodup_append.mp hrest).1, ?_⟩
  · rw [List.mem_reverse]
    exact hhead'
  · rw [List.length_reverse]
    exact h.length_lt
  · rw [List.map_map, List.map_map, List.map_inj_left]
    exact h.stored
  · intro key a
    rw [h.find]
    constructor
    · rintro ⟨s, hs, rfl, rfl⟩
      obtain ⟨n, hn, hp, -⟩ := heap_of_content (h.stored s hs)
      refine ⟨List.mem_map_of_mem hs, ?_⟩
      rw [hn, Option.map_some, (Prod.mk.inj hp).1]
    · rintro ⟨hm, hk⟩
      obtain ⟨s, hs, rfl⟩ := List.mem_map.mp hm
      obtain ⟨n, hn, hp, -⟩ := heap_of_content (h.stored s hs)
      rw [hn, Option.map_some, (Prod.mk.inj hp).1] at hk
      exact ⟨s, hs, Option.some.inj hk, rfl⟩

/-- A key of the list is that of one slot only. -/
theorem Holds.slot_of_find (h : c.Holds slots) {key : Bytes} {data : BolckData}
    (hf : Recency.find key (slots.map Slot.pair) = some data) :
    ∃ xs s ys, slots = xs ++ s :: ys ∧ s.key = key ∧ s.data = data ∧
      ∀ data', use key data' (slots.map Slot.pair) = (key, data') :: (xs ++ ys).map Slot.pair := by
  obtain ⟨s, hs, he⟩ := List.mem_map.mp (find_eq_some hf)
  obtain ⟨rfl, rfl⟩ := Prod.mk.inj he
  obtain ⟨xs, ys, rfl⟩ := List.append_of_mem hs
  refine ⟨xs, s, ys, rfl, rfl, rfl, ?_⟩
  intro data'
  have hnodup := h.nodup_keys
  rw [List.map_append, List.map_cons] at hnodup ⊢
  rw [List.map_append]
  exact use_append hnodup

theorem ne_of_find_none {key : Bytes} (hf : Recency.find key (slots.map Slot.pair) = none) :
    ∀ s ∈ slots, s.key ≠ key := by
  intro s hs hk
  rw [find_eq_none, List.map_map] at hf
  exact hf (List.mem_map.mpr ⟨s, hs, hk⟩)

/-- Get answers what the list finds, and puts it in front. -/
theorem Holds.get_eq (h : c.Holds slots) (key : Bytes) : ∃ c' slots',
    c.get key = some (Recency.find key (slots.map Slot.pair), c') ∧ c'.Holds slots' ∧
      slots'.map Slot.pair = step c.capacity (slots.map Slot.pair) (.get key) := by
  cases hf : Recency.find key (slots.map Slot.pair) with
  | none =>
      obtain ⟨hget, hs⟩ := h.get_miss (ne_of_find_none hf)
      exact ⟨_, slots, hget, hs, by rw [step, hf, Option.elim_none]⟩
  | some data =>
      obtain ⟨xs, s, ys, rfl, rfl, rfl, huse⟩ := h.slot_of_find hf
      obtain ⟨c', hget, hs⟩ := h.get_hit
      refine ⟨c', _, hget, hs, ?_⟩
      rw [step, hf, Option.elim_some, huse]
      rfl

theorem Holds.insert_eq (h : c.Holds slots) (key : Bytes) (data : BolckData) : ∃ c' slots',
    c.insert key data = some c' ∧ c'.Holds slots' ∧
      slots'.map Slot.pair = step c.capacity (slots.map Slot.pair) (.insert key data) := by
  cases hf : Recency.find key (slots.map Slot.pair) with
  | some old =>
      obtain ⟨xs, s, ys, rfl, rfl, -, huse⟩ := h.slot_of_find hf
      obtain ⟨c', hins, hs⟩ := h.insert_hit data
      have hlen := h.length_le
      rw [List.length_append, List.length_cons] at hlen
      refine ⟨c', _, hins, hs, ?_⟩
      rw [step, huse, List.take_of_length_le]
      · rfl
      · rw [List.length_cons, List.length_map, List.length_append]
        omega
  | none =>
      obtain ⟨c', a, hins, hs⟩ := h.insert_miss (ne_of_find_none hf) data
      obtain ⟨n, hn⟩ := Nat.exists_eq_succ_of_ne_zero h.capacity_pos.ne'
      have hlen := h.length_le
      refine ⟨c', _, hins, hs, ?_⟩
      rw [step, use_of_not_mem (find_eq_none.mp hf), hn, List.take_succ_cons, List.map_cons, ← List.map_take]
      split
      next hfull => rw [List.dropLast_eq_take, Nat.le_antisymm hlen (hn ▸ hfull), hn]; rfl
      next hroom => rw [List.take_of_length_le (by omega)]; rfl

theorem Holds.call_eq (h : c.Holds slots) (call : Recency.Call Bytes BolckData) : ∃ c' slots',
    c.call call = some c' ∧ c'.Holds slots' ∧ slots'.map Slot.pair = step c.capacity (slots.map Slot.pair) call ∧
      c'.capacity = c.capacity ∧ c'.hits + c'.misses = countGet (c.hits + c.misses) call := by
  cases call with
  | get key =>
      obtain ⟨c', slots', hget, hs, hl⟩ := h.get_eq key
      obtain ⟨hcap, hcount⟩ := get_counters hget
      exact ⟨c', slots', by rw [LRUCache.call, hget]; rfl, hs, hl, hcap, hcount⟩
  | insert key data =>
      obtain ⟨c', slots', hins, hs, hl⟩ := h.insert_eq key data
      obtain ⟨hcap, hhits, hmisses⟩ := insert_counters hins
      exact ⟨c', slots', hins, hs, hl, hcap, by rw [hhits, hmisses]; rfl⟩
  | clear =>
      obtain ⟨c', hclear, hs⟩ := h.clear
      obtain ⟨hcap, hhits, hmisses⟩ := clear_counters hclear
      exact ⟨c', [], hclear, hs, rfl, hcap, by rw [hhits, hmisses]; rfl⟩

theorem Holds.calls_eq (h : c.Holds slots) (calls : List (Recency.Call Bytes BolckData)) : ∃ c' slots',
    calls.foldlM LRUCache.call c = some c' ∧ c'.Holds slots' ∧
      slots'.map Slot.pair = calls.foldl (step c.capacity) (slots.map Slot.pair) ∧
      c'.hits + c'.misses = calls.foldl countGet (c.hits + c.misses) := by
  induction calls generalizing c slots with
  | nil => exact ⟨c, slots, rfl, h, rfl, rfl⟩
  | cons call calls ih =>
      obtain ⟨c₁, slots₁, hcall, h₁, hl₁, hcap, hcount⟩ := h.call_eq call
      obtain ⟨c', slots', hrun, h', hl', hcount'⟩ := ih h₁
      refine ⟨c', slots', ?_, h', ?_, ?_⟩
      · rw [List.foldlM_cons, hcall]
        exact hrun
      · rw [hl', hl₁, hcap, List.foldl_cons]
      · rw [hcount', hcount, List.foldl_cons]

/-- The cache is the recency list of its capacity, which a capacity of 0 makes 1. -/
theorem lru_cache_refines (capacity : Nat) (calls : List (Recency.Call Bytes BolckData)) :
    ∃ c, calls.foldlM LRUCache.call (.create capacity) = some c ∧
      c.IsRecencyList (calls.foldl (step (max capacity 1)) []) ∧
      (calls.foldl (step (max capacity 1)) []).length ≤ max capacity 1 ∧
      (∀ key, ∃ c', c.get key = some
        (if key ∈ (order (max capacity 1) calls).take (max capacity 1) then lastInserted key calls else none, c')) ∧
      c.hits + c.misses = gets calls := by
  have hcap : (LRUCache.create capacity).capacity = max capacity 1 := by
    rw [LRUCache.create]
    split
    next hzero => rw [hzero]; rfl
    next hpos => rw [max_eq_left (Nat.one_le_iff_ne_zero.mpr hpos)]
  have hpos : 0 < max capacity 1 := lt_of_lt_of_le Nat.one_pos (le_max_right _ _)
  obtain ⟨c, slots, hrun, h, hl, hcount⟩ := (Holds.create capacity).calls_eq calls
  rw [hcap] at hl
  refine ⟨c, hrun, ?_, length_foldl_step hpos calls, ?_, hcount⟩
  · have hlist := h.isRecencyList
    rw [hl] at hlist
    exact hlist
  · intro key
    obtain ⟨c', -, hget, -⟩ := h.get_eq key
    refine ⟨c', ?_⟩
    rw [hget, hl, ← find_foldl_step hpos]
    rfl

end LRUCache

end MiniStorage.Engine
