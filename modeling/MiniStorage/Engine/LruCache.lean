import MiniStorage.ByteOrder
import MiniStorage.SortedMap
import MiniStorage.Chains
import Mathlib.Data.List.Perm.Subperm

namespace MiniStorage.Engine

open Function Chains

abbrev BolckData := List (Bytes × Bytes)

/-- Node of LRUCache. A pointer is an address, and nullptr is `none`. -/
structure LruNode where
  key : Bytes
  data : BolckData
  prev : Option Nat := none
  next : Option Nat := none
deriving DecidableEq, Repr

/-- `heap` holds the nodes that are allocated, `fresh` is the address `new` returns next. -/
structure LRUCache where
  capacity : Nat
  heap : Nat → Option LruNode
  fresh : Nat
  cacheMap : SortedMap Bytes Nat
  head : Nat
  tail : Nat
  hits : Nat
  misses : Nat

namespace LRUCache

/-- "__head__" -/
def headKey : Bytes := [95, 95, 104, 101, 97, 100, 95, 95]

/-- "__tail__" -/
def tailKey : Bytes := [95, 95, 116, 97, 105, 108, 95, 95]

def create (capacity : Nat) : LRUCache where
  capacity := if capacity = 0 then 1 else capacity
  heap := update (update (fun _ => none) 0 (some { key := headKey, data := [], next := some 1 }))
    1 (some { key := tailKey, data := [], prev := some 0 })
  fresh := 2
  cacheMap := .empty
  head := 0
  tail := 1
  hits := 0
  misses := 0

def setNext (c : LRUCache) (a : Nat) (next : Option Nat) : Option LRUCache :=
  (c.heap a).map fun n => { c with heap := update c.heap a (some { n with next := next }) }

def setPrev (c : LRUCache) (a : Nat) (prev : Option Nat) : Option LRUCache :=
  (c.heap a).map fun n => { c with heap := update c.heap a (some { n with prev := prev }) }

def insertToFront (c : LRUCache) (node : Nat) : Option LRUCache := do
  let h ← c.heap c.head
  let c ← c.setNext node h.next
  let h ← c.heap c.head
  let c ← c.setPrev (← h.next) (some node)
  let c ← c.setNext c.head (some node)
  c.setPrev node (some c.head)

def removeFromList (c : LRUCache) (node : Nat) : Option LRUCache := do
  let n ← c.heap node
  let c ← c.setNext (← n.prev) n.next
  let n ← c.heap node
  let c ← c.setPrev (← n.next) n.prev
  let c ← c.setNext node none
  c.setPrev node none

def moveToFront (c : LRUCache) (node : Nat) : Option LRUCache := do
  let c ← c.removeFromList node
  c.insertToFront node

def exict (c : LRUCache) : Option LRUCache := do
  let t ← c.heap c.tail
  let lru ← t.prev
  if lru = c.head then return c
  let c ← c.removeFromList lru
  let n ← c.heap lru
  return { c with cacheMap := c.cacheMap.erase n.key, heap := update c.heap lru none }

/-- The data on a hit, nothing on a miss. -/
def get (c : LRUCache) (key : Bytes) : Option (Option BolckData × LRUCache) :=
  match c.cacheMap.find key with
  | none => some (none, { c with misses := c.misses + 1 })
  | some node => do
      let c ← c.moveToFront node
      let n ← c.heap node
      return (some n.data, { c with hits := c.hits + 1 })

def insert (c : LRUCache) (key : Bytes) (data : BolckData) : Option LRUCache :=
  match c.cacheMap.find key with
  | some node => do
      let n ← c.heap node
      moveToFront { c with heap := update c.heap node (some { n with data := data }) } node
  | none => do
      let c ← if c.cacheMap.entries.length ≥ c.capacity then c.exict else some c
      let node := c.fresh
      let c := { c with heap := update c.heap node (some { key := key, data := data }), fresh := node + 1 }
      let c ← c.insertToFront node
      return { c with cacheMap := c.cacheMap.insert key node }

/-- Delete every node from `cur` up to the tail. -/
def clearLoop (tail : Nat) : Nat → Nat → (Nat → Option LruNode) → Option (Nat → Option LruNode)
  | 0, _, _ => none
  | fuel + 1, cur, heap =>
      if cur = tail then some heap
      else do
        let n ← heap cur
        clearLoop tail fuel (← n.next) (update heap cur none)

def clear (c : LRUCache) : Option LRUCache := do
  let h ← c.heap c.head
  let heap ← clearLoop c.tail (c.fresh + 1) (← h.next) c.heap
  let c ← setNext { c with heap := heap } c.head (some c.tail)
  let c ← c.setPrev c.tail (some c.head)
  return { c with cacheMap := .empty, hits := 0, misses := 0 }

def nextOf (c : LRUCache) (a : Nat) : Option Nat := (c.heap a).bind LruNode.next

def prevOf (c : LRUCache) (a : Nat) : Option Nat := (c.heap a).bind LruNode.prev

def content (c : LRUCache) (a : Nat) : Option (Bytes × BolckData) := (c.heap a).map (fun n => (n.key, n.data))

theorem read_update {β : Type} (g : Option LruNode → β) (heap : Nat → Option LruNode) (a : Nat) (n : LruNode) :
    (fun b => g (update heap a (some n) b)) = update (fun b => g (heap b)) a (g (some n)) :=
  Function.comp_update g heap a (some n)

theorem read_update_same {β : Type} (g : Option LruNode → β) {heap : Nat → Option LruNode} {a : Nat} {n : LruNode}
    (n' : LruNode) (hn : heap a = some n) (hg : g (some n') = g (some n)) :
    (fun b => g (update heap a (some n') b)) = fun b => g (heap b) := by
  rw [read_update, hg, ← hn]
  exact update_eq_self a fun b => g (heap b)

theorem setNext_eq {c : LRUCache} {a : Nat} (v : Option Nat) {p : Bytes × BolckData} (h : c.content a = some p) :
    ∃ c', c.setNext a v = some c' ∧ c'.nextOf = update c.nextOf a v ∧ c'.prevOf = c.prevOf ∧ c'.content = c.content ∧
      c' = { c with heap := c'.heap } := by
  obtain ⟨n, hn, -⟩ := Option.map_eq_some_iff.mp h
  refine ⟨_, by rw [setNext, hn]; rfl, ?_, ?_, ?_, rfl⟩
  · exact read_update (fun x => x.bind LruNode.next) c.heap a _
  · exact read_update_same (fun x => x.bind LruNode.prev) { n with next := v } hn rfl
  · exact read_update_same (fun x => x.map fun n => (n.key, n.data)) { n with next := v } hn rfl

theorem setPrev_eq {c : LRUCache} {a : Nat} (v : Option Nat) {p : Bytes × BolckData} (h : c.content a = some p) :
    ∃ c', c.setPrev a v = some c' ∧ c'.prevOf = update c.prevOf a v ∧ c'.nextOf = c.nextOf ∧ c'.content = c.content ∧
      c' = { c with heap := c'.heap } := by
  obtain ⟨n, hn, -⟩ := Option.map_eq_some_iff.mp h
  refine ⟨_, by rw [setPrev, hn]; rfl, ?_, ?_, ?_, rfl⟩
  · exact read_update (fun x => x.bind LruNode.prev) c.heap a _
  · exact read_update_same (fun x => x.bind LruNode.next) { n with prev := v } hn rfl
  · exact read_update_same (fun x => x.map fun n => (n.key, n.data)) { n with prev := v } hn rfl

theorem heap_of_content {c : LRUCache} {a : Nat} {p : Bytes × BolckData} (h : c.content a = some p) :
    ∃ n, c.heap a = some n ∧ (n.key, n.data) = p ∧ n.next = c.nextOf a ∧ n.prev = c.prevOf a := by
  obtain ⟨n, hn, hp⟩ := Option.map_eq_some_iff.mp h
  exact ⟨n, hn, hp, by simp [nextOf, hn], by simp [prevOf, hn]⟩

theorem removeFromList_eq {c : LRUCache} {l l' : List Nat} {p n q : Nat} {dp dn dq : Bytes × BolckData}
    (h : Linked c.nextOf c.prevOf (l ++ p :: n :: q :: l')) (hd : (l ++ p :: n :: q :: l').Nodup)
    (hp : c.content p = some dp) (hn : c.content n = some dn) (hq : c.content q = some dq) :
    ∃ c', c.removeFromList n = some c' ∧ Linked c'.nextOf c'.prevOf (l ++ p :: q :: l') ∧
      c'.content = c.content ∧ c' = { c with heap := c'.heap } := by
  have hpair := (linked_append.mp h).2
  have hdr := (List.nodup_append.mp hd).2.1
  simp only [List.nodup_cons, List.mem_cons, not_or] at hdr
  obtain ⟨⟨hpn, hpq, -⟩, ⟨hnq, -⟩, -⟩ := hdr
  obtain ⟨n₀, hn₀, -, hx₀, hv₀⟩ := heap_of_content hn
  obtain ⟨c₁, h₁, hx₁, hv₁, hc₁, he₁⟩ := setNext_eq (some q) hp
  obtain ⟨n₁, hn₁, -, hx₁', hv₁'⟩ := heap_of_content (c := c₁) (by rw [hc₁]; exact hn)
  obtain ⟨c₂, h₂, hv₂, hx₂, hc₂, he₂⟩ := setPrev_eq (c := c₁) (some p) (by rw [hc₁]; exact hq)
  obtain ⟨c₃, h₃, hx₃, hv₃, hc₃, he₃⟩ := setNext_eq (c := c₂) none (by rw [hc₂, hc₁]; exact hn)
  obtain ⟨c₄, h₄, hv₄, hx₄, hc₄, he₄⟩ := setPrev_eq (c := c₃) none (by rw [hc₃, hc₂, hc₁]; exact hn)
  rw [hpair.2.1] at hv₀
  rw [hpair.2.2.1] at hx₀
  rw [hx₁, update_of_ne (Ne.symm hpn), hpair.2.2.1] at hx₁'
  rw [hv₁, hpair.2.1] at hv₁'
  refine ⟨c₄, ?_, ?_, ?_, ?_⟩
  · simp only [removeFromList, hn₀, hv₀, hx₀, h₁, hn₁, hv₁', hx₁', h₂, h₃, h₄, Option.bind_eq_bind, Option.bind_some]
  · rw [hx₄, hx₃, hx₂, hx₁, hv₄, hv₃, hv₂, hv₁]
    exact h.unlink hd
  · rw [hc₄, hc₃, hc₂, hc₁]
  · rw [he₄, he₃, he₂, he₁]

theorem insertToFront_eq {c : LRUCache} {l : List Nat} {n q : Nat} {dh dn dq : Bytes × BolckData}
    (h : Linked c.nextOf c.prevOf (c.head :: q :: l)) (hd : (c.head :: n :: q :: l).Nodup)
    (hh : c.content c.head = some dh) (hn : c.content n = some dn) (hq : c.content q = some dq) :
    ∃ c', c.insertToFront n = some c' ∧ Linked c'.nextOf c'.prevOf (c.head :: n :: q :: l) ∧
      c'.content = c.content ∧ c' = { c with heap := c'.heap } := by
  have hhn : c.head ≠ n := by
    simp only [List.nodup_cons, List.mem_cons, not_or] at hd
    exact hd.1.1
  obtain ⟨n₀, hn₀, -, hx₀, -⟩ := heap_of_content hh
  obtain ⟨c₁, h₁, hx₁, hv₁, hc₁, he₁⟩ := setNext_eq (some q) hn
  have hh₁ : c₁.head = c.head := by rw [he₁]
  obtain ⟨n₁, hn₁, -, hx₁', -⟩ := heap_of_content (c := c₁) (a := c₁.head) (by rw [hh₁, hc₁]; exact hh)
  obtain ⟨c₂, h₂, hv₂, hx₂, hc₂, he₂⟩ := setPrev_eq (c := c₁) (some n) (by rw [hc₁]; exact hq)
  have hh₂ : c₂.head = c.head := by rw [he₂, hh₁]
  obtain ⟨c₃, h₃, hx₃, hv₃, hc₃, he₃⟩ := setNext_eq (c := c₂) (a := c₂.head) (some n) (by rw [hh₂, hc₂, hc₁]; exact hh)
  have hh₃ : c₃.head = c.head := by rw [he₃, hh₂]
  obtain ⟨c₄, h₄, hv₄, hx₄, hc₄, he₄⟩ := setPrev_eq (c := c₃) (some c₃.head) (by rw [hc₃, hc₂, hc₁]; exact hn)
  rw [h.1] at hx₀
  rw [hx₁, hh₁, update_of_ne hhn, h.1] at hx₁'
  refine ⟨c₄, ?_, ?_, ?_, ?_⟩
  · simp only [insertToFront, hn₀, hx₀, h₁, hn₁, hx₁', h₂, h₃, h₄, Option.bind_eq_bind, Option.bind_some]
  · rw [hx₄, hx₃, hx₂, hx₁, hv₄, hv₃, hv₂, hv₁, hh₂, hh₃]
    exact h.insert hd
  · rw [hc₄, hc₃, hc₂, hc₁]
  · rw [he₄, he₃, he₂, he₁]

/-- One node of the list between the sentinels. -/
structure Slot where
  addr : Nat
  key : Bytes
  data : BolckData

/-- The list, the nodes and cache_map_ hold these slots, the most recently used first. -/
structure Holds (c : LRUCache) (slots : List Slot) : Prop where
  linked : Linked c.nextOf c.prevOf (c.head :: (slots.map Slot.addr ++ [c.tail]))
  nodup : (c.head :: (slots.map Slot.addr ++ [c.tail])).Nodup
  stored : ∀ s ∈ slots, c.content s.addr = some (s.key, s.data)
  sentinels : (∃ p, c.content c.head = some p) ∧ ∃ p, c.content c.tail = some p
  mapped : c.cacheMap.entries.Perm (slots.map fun s => (s.key, s.addr))
  allocated : ∀ a ∈ c.head :: (slots.map Slot.addr ++ [c.tail]), a < c.fresh
  capacity_pos : 0 < c.capacity
  length_le : slots.length ≤ c.capacity

theorem Holds.create (capacity : Nat) : (create capacity).Holds [] := by
  constructor
  · simp [Linked, LRUCache.create, nextOf, prevOf]
  · simp [LRUCache.create]
  · simp
  · simp [LRUCache.create, content]
  · simp [LRUCache.create, SortedMap.empty]
  · simp [LRUCache.create]
  · simp only [LRUCache.create]
    split <;> omega
  · simp

theorem Holds.find {c : LRUCache} {slots : List Slot} (h : c.Holds slots) {key : Bytes} {a : Nat} :
    c.cacheMap.find key = some a ↔ ∃ s ∈ slots, s.key = key ∧ s.addr = a := by
  rw [SortedMap.find_eq_some, h.mapped.mem_iff]
  simp

theorem Holds.find_none {c : LRUCache} {slots : List Slot} (h : c.Holds slots) {key : Bytes} :
    c.cacheMap.find key = none ↔ ∀ s ∈ slots, s.key ≠ key := by
  rw [Option.eq_none_iff_forall_ne_some]
  constructor
  · intro hn s hs he
    exact hn s.addr (h.find.mpr ⟨s, hs, he, rfl⟩)
  · intro hall a ha
    obtain ⟨s, hs, he, -⟩ := h.find.mp ha
    exact hall s hs he

theorem Holds.live {c : LRUCache} {slots : List Slot} (h : c.Holds slots) {a : Nat}
    (ha : a ∈ c.head :: (slots.map Slot.addr ++ [c.tail])) : ∃ p, c.content a = some p := by
  simp only [List.mem_cons, List.mem_append, List.mem_map, List.not_mem_nil, or_false] at ha
  rcases ha with rfl | ⟨s, hs, rfl⟩ | rfl
  · exact h.sentinels.1
  · exact ⟨_, h.stored s hs⟩
  · exact h.sentinels.2

/-- The list is shorter than there are addresses. -/
theorem Holds.length_lt {c : LRUCache} {slots : List Slot} (h : c.Holds slots) :
    (slots.map Slot.addr).length < c.fresh + 1 := by
  have hsub : slots.map Slot.addr ⊆ List.range c.fresh := by
    intro a ha
    exact List.mem_range.mpr (h.allocated a (by simp [ha]))
  have hnd : (slots.map Slot.addr).Nodup := (List.nodup_append.mp (List.nodup_cons.mp h.nodup).2).1
  have hle := (List.subperm_of_subset hnd hsub).length_le
  rw [List.length_range] at hle
  exact Nat.lt_succ_of_le hle

/-- A slot comes off the list; its node and cache_map_ stay as they are. -/
theorem Holds.removeFromList {c : LRUCache} {xs ys : List Slot} {s : Slot} (h : c.Holds (xs ++ s :: ys)) :
    ∃ c', c.removeFromList s.addr = some c' ∧
      Linked c'.nextOf c'.prevOf (c.head :: ((xs ++ ys).map Slot.addr ++ [c.tail])) ∧
      c'.content = c.content ∧ c' = { c with heap := c'.heap } := by
  -- the neighbours of the slot, sentinels included
  obtain ⟨l, p, hl⟩ : ∃ l p, c.head :: xs.map Slot.addr = l ++ [p] :=
    ⟨_, _, (List.dropLast_append_getLast (List.cons_ne_nil _ _)).symm⟩
  obtain ⟨q, l', hq⟩ : ∃ q l', ys.map Slot.addr ++ [c.tail] = q :: l' := by
    cases ys with
    | nil => exact ⟨_, _, rfl⟩
    | cons y ys => exact ⟨_, _, rfl⟩
  have hfull : c.head :: ((xs ++ s :: ys).map Slot.addr ++ [c.tail]) = l ++ p :: s.addr :: q :: l' := by
    calc c.head :: ((xs ++ s :: ys).map Slot.addr ++ [c.tail])
        = (c.head :: xs.map Slot.addr) ++ s.addr :: (ys.map Slot.addr ++ [c.tail]) := by simp
      _ = l ++ p :: s.addr :: q :: l' := by rw [hl, hq]; simp
  have hcut : c.head :: ((xs ++ ys).map Slot.addr ++ [c.tail]) = l ++ p :: q :: l' := by
    calc c.head :: ((xs ++ ys).map Slot.addr ++ [c.tail])
        = (c.head :: xs.map Slot.addr) ++ (ys.map Slot.addr ++ [c.tail]) := by simp
      _ = l ++ p :: q :: l' := by rw [hl, hq]; simp
  have hc (a : Nat) (ha : a ∈ l ++ p :: s.addr :: q :: l') : ∃ d, c.content a = some d := h.live (hfull ▸ ha)
  obtain ⟨dp, hdp⟩ := hc p (by simp)
  obtain ⟨ds, hds⟩ := hc s.addr (by simp)
  obtain ⟨dq, hdq⟩ := hc q (by simp)
  have hd := h.nodup
  have hlinked := h.linked
  rw [hfull] at hd hlinked
  rw [hcut]
  exact removeFromList_eq hlinked hd hdp hds hdq

theorem insertToFront_front {c : LRUCache} {slots : List Slot} {n : Nat}
    (hl : Linked c.nextOf c.prevOf (c.head :: (slots.map Slot.addr ++ [c.tail])))
    (hd : (c.head :: n :: (slots.map Slot.addr ++ [c.tail])).Nodup)
    (hc : ∀ a ∈ c.head :: n :: (slots.map Slot.addr ++ [c.tail]), ∃ p, c.content a = some p) :
    ∃ c', c.insertToFront n = some c' ∧ Linked c'.nextOf c'.prevOf (c.head :: n :: (slots.map Slot.addr ++ [c.tail])) ∧
      c'.content = c.content ∧ c' = { c with heap := c'.heap } := by
  obtain ⟨q, l', hq⟩ : ∃ q l', slots.map Slot.addr ++ [c.tail] = q :: l' := by
    cases slots with
    | nil => exact ⟨_, _, rfl⟩
    | cons y ys => exact ⟨_, _, rfl⟩
  rw [hq] at hl hd hc ⊢
  obtain ⟨dh, hdh⟩ := hc c.head (by simp)
  obtain ⟨dn, hdn⟩ := hc n (by simp)
  obtain ⟨dq, hdq⟩ := hc q (by simp)
  exact insertToFront_eq hl hd hdh hdn hdq

theorem Holds.moveToFront {c : LRUCache} {xs ys : List Slot} {s : Slot} (h : c.Holds (xs ++ s :: ys)) :
    ∃ c', c.moveToFront s.addr = some c' ∧ c'.Holds (s :: (xs ++ ys)) ∧ c' = { c with heap := c'.heap } := by
  have hp : (xs ++ s :: ys).Perm (s :: (xs ++ ys)) := List.perm_middle
  have hpa : (c.head :: ((xs ++ s :: ys).map Slot.addr ++ [c.tail])).Perm
      (c.head :: (s.addr :: ((xs ++ ys).map Slot.addr ++ [c.tail]))) :=
    ((hp.map Slot.addr).append_right _).cons _
  obtain ⟨c₁, h₁, hl₁, hc₁, he₁⟩ := h.removeFromList
  have hh₁ : c₁.head = c.head := by rw [he₁]
  have ht₁ : c₁.tail = c.tail := by rw [he₁]
  obtain ⟨c₂, h₂, hl₂, hc₂, he₂⟩ := insertToFront_front (c := c₁) (n := s.addr)
    (by rw [hh₁, ht₁]; exact hl₁) (by rw [hh₁, ht₁]; exact hpa.nodup_iff.mp h.nodup)
    (by rw [hh₁, ht₁, hc₁]; exact fun a ha => h.live (hpa.mem_iff.mpr ha))
  have he : c₂ = { c with heap := c₂.heap } := by rw [he₂, he₁]
  have hh₂ : c₂.head = c.head := by rw [he]
  have ht₂ : c₂.tail = c.tail := by rw [he]
  refine ⟨c₂, ?_, ⟨?_, ?_, ?_, ?_, ?_, ?_, ?_, ?_⟩, he⟩
  · simp only [LRUCache.moveToFront, h₁, h₂, Option.bind_eq_bind, Option.bind_some]
  · rw [hh₁, ht₁] at hl₂
    rw [hh₂, ht₂]
    exact hl₂
  · rw [hh₂, ht₂]
    exact hpa.nodup_iff.mp h.nodup
  · intro t ht
    rw [hc₂, hc₁]
    exact h.stored t (hp.mem_iff.mpr ht)
  · rw [hh₂, ht₂, hc₂, hc₁]
    exact h.sentinels
  · rw [he]
    exact h.mapped.trans (hp.map _)
  · rw [he]
    exact fun a ha => h.allocated a (hpa.mem_iff.mpr ha)
  · rw [he]
    exact h.capacity_pos
  · rw [he]
    exact hp.length_eq ▸ h.length_le

theorem Holds.get_miss {c : LRUCache} {slots : List Slot} (h : c.Holds slots) {key : Bytes}
    (hk : ∀ s ∈ slots, s.key ≠ key) :
    c.get key = some (none, { c with misses := c.misses + 1 }) ∧ Holds { c with misses := c.misses + 1 } slots := by
  refine ⟨?_, h.linked, h.nodup, h.stored, h.sentinels, h.mapped, h.allocated, h.capacity_pos, h.length_le⟩
  rw [get, h.find_none.mpr hk]

theorem Holds.get_hit {c : LRUCache} {xs ys : List Slot} {s : Slot} (h : c.Holds (xs ++ s :: ys)) :
    ∃ c', c.get s.key = some (some s.data, c') ∧ c'.Holds (s :: (xs ++ ys)) := by
  obtain ⟨c₁, h₁, hs₁, -⟩ := h.moveToFront
  obtain ⟨n, hn, hd, -⟩ := heap_of_content (hs₁.stored s List.mem_cons_self)
  have hf : c.cacheMap.find s.key = some s.addr := h.find.mpr ⟨s, by simp, rfl, rfl⟩
  refine ⟨{ c₁ with hits := c₁.hits + 1 }, ?_, hs₁.linked, hs₁.nodup, hs₁.stored, hs₁.sentinels, hs₁.mapped,
    hs₁.allocated, hs₁.capacity_pos, hs₁.length_le⟩
  simp only [get, hf, h₁, hn, Option.bind_eq_bind, Option.bind_some, (Prod.mk.inj hd).2, Option.pure_def]

theorem Holds.exict {c : LRUCache} {xs : List Slot} {s : Slot} (h : c.Holds (xs ++ [s])) :
    ∃ c', c.exict = some c' ∧ c'.Holds xs ∧ c'.fresh = c.fresh ∧ c'.capacity = c.capacity := by
  have hfull : c.head :: ((xs ++ [s]).map Slot.addr ++ [c.tail]) =
      (c.head :: xs.map Slot.addr) ++ s.addr :: [c.tail] := by simp
  have hd := h.nodup
  have hlinked := h.linked
  rw [hfull] at hd hlinked
  have hlast : c.prevOf c.tail = some s.addr := (linked_append.mp hlinked).2.2.1
  have hmem : s.addr ∉ c.head :: (xs.map Slot.addr ++ [c.tail]) := by
    simpa using (List.nodup_cons.mp (List.perm_middle.nodup_iff.mp hd)).1
  have hhead : s.addr ≠ c.head := fun he => hmem (by simp [he])
  obtain ⟨c₁, h₁, hl₁, hc₁, he₁⟩ := h.removeFromList
  obtain ⟨_, hdt⟩ := h.sentinels.2
  obtain ⟨t, ht, -, -, hv⟩ := heap_of_content hdt
  rw [hlast] at hv
  obtain ⟨n, hn, hk, -⟩ := heap_of_content (c := c₁) (a := s.addr) (by rw [hc₁]; exact h.stored s (by simp))
  have hkey : n.key = s.key := (Prod.mk.inj hk).1
  have hcut : (c.head :: (xs.map Slot.addr ++ [c.tail])).Nodup := by
    simpa using (List.nodup_cons.mp (List.perm_middle.nodup_iff.mp hd)).2
  -- the node that is freed is on no list any more
  have hother (a : Nat) (ha : a ∈ c.head :: (xs.map Slot.addr ++ [c.tail])) :
      update c₁.heap s.addr none a = c₁.heap a :=
    update_of_ne (fun he : a = s.addr => hmem (he ▸ ha)) _ _
  have hcontent (a : Nat) (ha : a ∈ c.head :: (xs.map Slot.addr ++ [c.tail])) :
      ({ c₁ with cacheMap := c₁.cacheMap.erase n.key, heap := update c₁.heap s.addr none } : LRUCache).content a =
        c.content a := by
    rw [← hc₁]
    simp only [LRUCache.content, hother a ha]
  have hh₁ : c₁.head = c.head := by rw [he₁]
  have ht₁ : c₁.tail = c.tail := by rw [he₁]
  refine ⟨{ c₁ with cacheMap := c₁.cacheMap.erase n.key, heap := update c₁.heap s.addr none }, ?_,
    ⟨?_, ?_, ?_, ?_, ?_, ?_, ?_, ?_⟩, by rw [he₁], by rw [he₁]⟩
  · simp only [LRUCache.exict, ht, hv, hhead, h₁, hn, if_false, Option.bind_eq_bind, Option.bind_some, Option.pure_def]
  · rw [List.append_nil] at hl₁
    rw [hh₁, ht₁]
    refine hl₁.congr ?_ ?_
    · intro a ha
      simp only [nextOf, hother a (List.dropLast_subset _ ha)]
    · intro a ha
      simp only [prevOf, hother a (List.mem_of_mem_tail ha)]
  · rw [hh₁, ht₁]
    exact hcut
  · intro t ht
    have hmem' : t.addr ∈ c.head :: (xs.map Slot.addr ++ [c.tail]) := by
      simpa using Or.inr (Or.inl ⟨t, ht, rfl⟩)
    rw [hcontent t.addr hmem']
    exact h.stored t (by simp [ht])
  · constructor
    · rw [hcontent _ (by simp [hh₁]), hh₁]
      exact h.sentinels.1
    · rw [hcontent _ (by simp [ht₁]), ht₁]
      exact h.sentinels.2
  · have hperm : c.cacheMap.entries.Perm ((s.key, s.addr) :: xs.map fun s => (s.key, s.addr)) :=
      h.mapped.trans (by simp)
    rw [hkey, he₁]
    exact SortedMap.perm_erase hperm
  · rw [he₁]
    intro a ha
    apply h.allocated
    rw [hfull]
    simp only [List.mem_cons, List.mem_append] at ha ⊢
    tauto
  · rw [he₁]
    exact h.capacity_pos
  · have hle : xs.length + 1 ≤ c.capacity := by simpa using h.length_le
    rw [he₁]
    exact Nat.le_of_succ_le hle

theorem Holds.insert_hit {c : LRUCache} {xs ys : List Slot} {s : Slot} (h : c.Holds (xs ++ s :: ys))
    (data : BolckData) :
    ∃ c', c.insert s.key data = some c' ∧ c'.Holds ({ s with data := data } :: (xs ++ ys)) := by
  obtain ⟨n, hn, hk, -, -⟩ := heap_of_content (h.stored s (by simp))
  have hf : c.cacheMap.find s.key = some s.addr := h.find.mpr ⟨s, by simp, rfl, rfl⟩
  have hkey : n.key = s.key := (Prod.mk.inj hk).1
  have hmap : (xs ++ s :: ys).map Slot.addr = (xs ++ { s with data := data } :: ys).map Slot.addr := by simp
  have hnext : nextOf { c with heap := update c.heap s.addr (some { n with data := data }) } = c.nextOf := by
    funext a
    by_cases ha : a = s.addr
    · subst ha
      simp [nextOf, hn]
    · simp [nextOf, ha]
  have hprev : prevOf { c with heap := update c.heap s.addr (some { n with data := data }) } = c.prevOf := by
    funext a
    by_cases ha : a = s.addr
    · subst ha
      simp [prevOf, hn]
    · simp [prevOf, ha]
  have hcontent (a : Nat) : content { c with heap := update c.heap s.addr (some { n with data := data }) } a =
      if a = s.addr then some (s.key, data) else c.content a := by
    by_cases ha : a = s.addr
    · subst ha
      simp [content, hkey]
    · simp [content, ha]
  have hd := h.nodup
  have hsentinel (a : Nat) (ha : ∃ p, c.content a = some p) :
      ∃ p, content { c with heap := update c.heap s.addr (some { n with data := data }) } a = some p := by
    rw [hcontent]
    split
    · exact ⟨_, rfl⟩
    · exact ha
  have hmid : Holds { c with heap := update c.heap s.addr (some { n with data := data }) }
      (xs ++ { s with data := data } :: ys) := by
    refine ⟨?_, ?_, ?_, ⟨hsentinel _ h.sentinels.1, hsentinel _ h.sentinels.2⟩, ?_, ?_, h.capacity_pos, ?_⟩
    · rw [hnext, hprev, ← hmap]
      exact h.linked
    · rw [← hmap]
      exact hd
    · intro t ht
      rw [hcontent]
      have hslot := (List.perm_middle.map Slot.addr).nodup_iff.mp (List.nodup_append.mp (List.nodup_cons.mp hd).2).1
      simp only [List.map_cons, List.nodup_cons, List.mem_map, not_exists, not_and] at hslot
      rcases List.mem_cons.mp (List.perm_middle.mem_iff.mp ht) with rfl | ht
      · rw [if_pos rfl]
      · rw [if_neg (hslot.1 t ht)]
        exact h.stored t (List.perm_middle.mem_iff.mpr (List.mem_cons_of_mem _ ht))
    · simpa using h.mapped
    · rw [← hmap]
      exact h.allocated
    · simpa using h.length_le
  obtain ⟨c', h', hs', -⟩ := hmid.moveToFront
  refine ⟨c', ?_, hs'⟩
  simp only [LRUCache.insert, hf, hn, Option.bind_eq_bind, Option.bind_some]
  exact h'

theorem Holds.insert_new {c : LRUCache} {slots : List Slot} (h : c.Holds slots) {key : Bytes}
    (hk : ∀ s ∈ slots, s.key ≠ key) (hroom : slots.length < c.capacity) (data : BolckData) :
    ∃ c', (do
        let c' ← insertToFront
          { c with heap := update c.heap c.fresh (some { key := key, data := data }), fresh := c.fresh + 1 } c.fresh
        return { c' with cacheMap := c'.cacheMap.insert key c.fresh }) = some c' ∧
      c'.Holds (⟨c.fresh, key, data⟩ :: slots) := by
  let c₁ : LRUCache :=
    { c with heap := update c.heap c.fresh (some { key := key, data := data }), fresh := c.fresh + 1 }
  have hne (a : Nat) (ha : a ∈ c.head :: (slots.map Slot.addr ++ [c.tail])) : a ≠ c.fresh :=
    ne_of_lt (h.allocated a ha)
  have hother (a : Nat) (ha : a ∈ c.head :: (slots.map Slot.addr ++ [c.tail])) : c₁.heap a = c.heap a :=
    update_of_ne (hne a ha) _ _
  have hcontent (a : Nat) (ha : a ∈ c.head :: (slots.map Slot.addr ++ [c.tail])) : c₁.content a = c.content a := by
    simp only [LRUCache.content, hother a ha]
  have hnew : c₁.content c.fresh = some (key, data) := by simp [LRUCache.content, c₁]
  have hlinked : Linked c₁.nextOf c₁.prevOf (c.head :: (slots.map Slot.addr ++ [c.tail])) := by
    refine h.linked.congr ?_ ?_
    · intro a ha
      simp only [nextOf, hother a (List.dropLast_subset _ ha)]
    · intro a ha
      simp only [prevOf, hother a (List.mem_of_mem_tail ha)]
  have hnodup : (c.head :: c.fresh :: (slots.map Slot.addr ++ [c.tail])).Nodup := by
    have hf : c.fresh ∉ c.head :: (slots.map Slot.addr ++ [c.tail]) := fun hm => hne _ hm rfl
    exact (List.Perm.swap ..).nodup_iff.mp (List.nodup_cons.mpr ⟨hf, h.nodup⟩)
  obtain ⟨c₂, h₂, hl₂, hc₂, he₂⟩ := insertToFront_front (c := c₁) (n := c.fresh) hlinked hnodup (by
    intro a ha
    rcases List.mem_cons.mp ((List.Perm.swap ..).mem_iff.mp ha) with rfl | ha
    · exact ⟨_, hnew⟩
    · rw [hcontent a ha]
      exact h.live ha)
  refine ⟨{ c₂ with cacheMap := c₂.cacheMap.insert key c.fresh }, by rw [h₂]; rfl, ?_⟩
  have hh₂ : c₂.head = c.head := by rw [he₂]
  have ht₂ : c₂.tail = c.tail := by rw [he₂]
  constructor
  · show Linked c₂.nextOf c₂.prevOf (c₂.head :: (c.fresh :: slots.map Slot.addr ++ [c₂.tail]))
    rw [hh₂, ht₂]
    exact hl₂
  · show (c₂.head :: (c.fresh :: slots.map Slot.addr ++ [c₂.tail])).Nodup
    rw [hh₂, ht₂]
    exact hnodup
  · intro s hs
    show c₂.content s.addr = _
    rw [hc₂]
    rcases List.mem_cons.mp hs with rfl | hs
    · exact hnew
    · rw [hcontent s.addr (by simpa using Or.inr (Or.inl ⟨s, hs, rfl⟩))]
      exact h.stored s hs
  · show (∃ p, c₂.content c₂.head = some p) ∧ ∃ p, c₂.content c₂.tail = some p
    rw [hh₂, ht₂, hc₂, hcontent _ (by simp), hcontent _ (by simp)]
    exact h.sentinels
  · show (c₂.cacheMap.insert key c.fresh).entries.Perm _
    rw [he₂]
    exact (SortedMap.perm_insert _ (h.find_none.mpr hk)).trans (h.mapped.cons _)
  · show ∀ a ∈ c₂.head :: (c.fresh :: slots.map Slot.addr ++ [c₂.tail]), a < c₂.fresh
    rw [hh₂, ht₂, he₂]
    intro a ha
    rcases List.mem_cons.mp ((List.Perm.swap ..).mem_iff.mp ha) with rfl | ha
    · exact Nat.lt_succ_self _
    · exact Nat.lt_succ_of_lt (h.allocated a ha)
  · show 0 < c₂.capacity
    rw [he₂]
    exact h.capacity_pos
  · show slots.length + 1 ≤ c₂.capacity
    rw [he₂]
    exact hroom

/-- Insert under a new key, which pushes the last slot out when the cache is full. -/
theorem Holds.insert_miss {c : LRUCache} {slots : List Slot} (h : c.Holds slots) {key : Bytes}
    (hk : ∀ s ∈ slots, s.key ≠ key) (data : BolckData) :
    ∃ c' a, c.insert key data = some c' ∧
      c'.Holds (⟨a, key, data⟩ :: if c.capacity ≤ slots.length then slots.dropLast else slots) := by
  have hlen : c.cacheMap.entries.length = slots.length := by simpa using h.mapped.length_eq
  have hf := h.find_none.mpr hk
  by_cases hfull : c.capacity ≤ slots.length
  · rcases List.eq_nil_or_concat' slots with rfl | ⟨xs, s, rfl⟩
    · have := h.capacity_pos
      simp at hfull
      omega
    · obtain ⟨c₁, h₁, hs₁, -, hcap⟩ := h.exict
      have hle := h.length_le
      simp only [List.length_append, List.length_singleton] at hle
      obtain ⟨c', h', hs'⟩ := hs₁.insert_new (fun s hs => hk s (by simp [hs])) (by omega) data
      refine ⟨c', c₁.fresh, ?_, ?_⟩
      · simp only [LRUCache.insert, hf, hlen, ge_iff_le, hfull, if_true, h₁, Option.bind_eq_bind, Option.bind_some]
        exact h'
      · rw [if_pos hfull, List.dropLast_concat]
        exact hs'
  · obtain ⟨c', h', hs'⟩ := h.insert_new hk (by omega) data
    refine ⟨c', c.fresh, ?_, ?_⟩
    · simp only [LRUCache.insert, hf, hlen, ge_iff_le, hfull, if_false, Option.bind_eq_bind, Option.bind_some]
      exact h'
    · rw [if_neg hfull]
      exact hs'

theorem clearLoop_eq {c : LRUCache} {addrs : List Nat} {tail cur fuel : Nat} {heap : Nat → Option LruNode}
    (hl : Linked c.nextOf c.prevOf (addrs ++ [tail])) (hd : (addrs ++ [tail]).Nodup)
    (hcur : (addrs ++ [tail]).head? = some cur) (hheap : ∀ a ∈ addrs, heap a = c.heap a)
    (hlive : ∀ a ∈ addrs, ∃ p, c.content a = some p) (hfuel : addrs.length < fuel) :
    ∃ heap', clearLoop tail fuel cur heap = some heap' ∧ ∀ a ∉ addrs, heap' a = heap a := by
  induction addrs generalizing cur fuel heap with
  | nil =>
      obtain ⟨fuel, rfl⟩ := Nat.exists_eq_succ_of_ne_zero (by omega : fuel ≠ 0)
      obtain rfl : tail = cur := by simpa using hcur
      exact ⟨heap, by simp [clearLoop], fun _ _ => rfl⟩
  | cons a addrs ih =>
      obtain ⟨fuel, rfl⟩ := Nat.exists_eq_succ_of_ne_zero (by omega : fuel ≠ 0)
      obtain rfl : a = cur := by simpa using hcur
      obtain ⟨ha, hd'⟩ := List.nodup_cons.mp hd
      obtain ⟨b, l, hb⟩ : ∃ b l, addrs ++ [tail] = b :: l := by
        cases addrs with
        | nil => exact ⟨_, _, rfl⟩
        | cons b l => exact ⟨_, _, rfl⟩
      have hne : a ≠ tail := fun he => ha (by simp [he])
      rw [List.cons_append, hb] at hl
      obtain ⟨hnext, -, hl'⟩ := hl
      obtain ⟨_, hp⟩ := hlive a List.mem_cons_self
      obtain ⟨n, hn, -, hx, -⟩ := heap_of_content hp
      have hhead : (addrs ++ [tail]).head? = some b := by
        rw [hb]
        rfl
      have hheap' : ∀ c' ∈ addrs, update heap a none c' = c.heap c' := by
        intro c' hc'
        rw [update_of_ne (fun he => ha (by simp [← he, hc']))]
        exact hheap c' (List.mem_cons_of_mem _ hc')
      obtain ⟨heap', h', hother⟩ := ih (hb ▸ hl') hd' hhead hheap' (fun c' hc' => hlive c' (List.mem_cons_of_mem _ hc'))
        (by simpa using hfuel)
      refine ⟨heap', ?_, ?_⟩
      · rw [clearLoop, if_neg hne, hheap a List.mem_cons_self, hn]
        simp only [Option.bind_eq_bind, Option.bind_some, hx, hnext]
        exact h'
      · intro c' hc'
        simp only [List.mem_cons, not_or] at hc'
        rw [hother c' hc'.2, update_of_ne hc'.1]

theorem Holds.clear {c : LRUCache} {slots : List Slot} (h : c.Holds slots) :
    ∃ c', c.clear = some c' ∧ c'.Holds [] := by
  obtain ⟨b, l, hb⟩ : ∃ b l, slots.map Slot.addr ++ [c.tail] = b :: l := by
    cases slots with
    | nil => exact ⟨_, _, rfl⟩
    | cons s slots => exact ⟨_, _, rfl⟩
  have hlinked := h.linked
  have hd := h.nodup
  obtain ⟨_, hhead⟩ := h.sentinels.1
  obtain ⟨_, htail⟩ := h.sentinels.2
  obtain ⟨n, hn, -, hx, -⟩ := heap_of_content hhead
  have hnext : n.next = some b := by
    rw [hx]
    rw [hb] at hlinked
    exact hlinked.1
  have hl' : Linked c.nextOf c.prevOf (slots.map Slot.addr ++ [c.tail]) := by
    rw [hb] at hlinked ⊢
    exact hlinked.2.2
  have hfuel : (slots.map Slot.addr).length < c.fresh + 1 := h.length_lt
  have hfirst : (slots.map Slot.addr ++ [c.tail]).head? = some b := by
    rw [hb]
    rfl
  obtain ⟨heap', h', hother⟩ := clearLoop_eq hl' (List.nodup_cons.mp hd).2 hfirst (fun _ _ => rfl)
    (fun a ha => h.live (by simp [ha])) hfuel
  have hht : c.head ≠ c.tail := fun he => (List.nodup_cons.mp hd).1 (by simp [he])
  have hheadOut : c.head ∉ slots.map Slot.addr := fun hm => (List.nodup_cons.mp hd).1 (by simp [hm])
  have htailOut : c.tail ∉ slots.map Slot.addr := by
    intro hm
    exact (List.nodup_append.mp (List.nodup_cons.mp hd).2).2.2 _ hm _ (by simp) rfl
  obtain ⟨c₁, h₁, hx₁, hv₁, hc₁, he₁⟩ := setNext_eq (c := { c with heap := heap' }) (a := c.head) (some c.tail)
    (by simp only [LRUCache.content, hother _ hheadOut]; exact hhead)
  have ht₁ : c₁.tail = c.tail := by rw [he₁]
  obtain ⟨c₂, h₂, hv₂, hx₂, hc₂, he₂⟩ := setPrev_eq (c := c₁) (a := c.tail) (some c₁.head)
    (by rw [hc₁]; simp only [LRUCache.content, hother _ htailOut]; exact htail)
  have hh₂ : c₂.head = c.head := by rw [he₂, he₁]
  have ht₂ : c₂.tail = c.tail := by rw [he₂, ht₁]
  refine ⟨{ c₂ with cacheMap := .empty, hits := 0, misses := 0 }, ?_, ?_⟩
  · simp only [LRUCache.clear, hn, hnext, h', h₁, ht₁, h₂, Option.bind_eq_bind, Option.bind_some]
    rfl
  · constructor
    · show Linked c₂.nextOf c₂.prevOf [c₂.head, c₂.tail]
      refine ⟨?_, ?_, trivial⟩
      · rw [hh₂, ht₂, hx₂, hx₁, update_self]
      · rw [hh₂, ht₂, hv₂, update_self, he₁]
    · show [c₂.head, c₂.tail].Nodup
      rw [hh₂, ht₂]
      simpa using hht
    · simp
    · show (∃ p, c₂.content c₂.head = some p) ∧ ∃ p, c₂.content c₂.tail = some p
      rw [hh₂, ht₂, hc₂, hc₁]
      simp only [LRUCache.content, hother _ hheadOut, hother _ htailOut]
      exact h.sentinels
    · exact .nil
    · show ∀ a ∈ [c₂.head, c₂.tail], a < c₂.fresh
      have ha := h.allocated
      rw [hh₂, ht₂, he₂, he₁]
      simpa using ⟨ha c.head (by simp), ha c.tail (by simp)⟩
    · show 0 < c₂.capacity
      rw [he₂, he₁]
      exact h.capacity_pos
    · exact Nat.zero_le _

end LRUCache

end MiniStorage.Engine
