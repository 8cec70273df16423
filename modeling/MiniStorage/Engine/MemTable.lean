import MiniStorage.ByteOrder
import MiniStorage.SortedMap
import MiniStorage.Chains
import Mathlib.Algebra.Ring.Nat
import Mathlib.Data.List.Induction

namespace MiniStorage.Engine

open Function Chains

/-- MAX_LEVEL -/
def maxLevel : Nat := 16

/-- What RandomLevel can return. -/
def Height := { n : Nat // 1 ≤ n ∧ n ≤ maxLevel }

structure SkipListNode where
  key : Bytes
  value : Bytes
  next : List (Option Nat)
deriving DecidableEq, Repr

/-- `heap` holds the nodes that are allocated, `fresh` is the address `new` returns next. -/
structure MemTable where
  heap : Nat → Option SkipListNode
  fresh : Nat
  head : Nat
  levelCount : Nat
  count : Nat
  size : Nat

namespace MemTable

def create : MemTable where
  heap := update (fun _ => none) 0 (some ⟨[], [], List.replicate maxLevel none⟩)
  fresh := 1
  head := 0
  levelCount := 1
  count := 0
  size := 0

/-- `a->next[i]`: nothing unless the node is there and reaches that level. -/
def nextAt (heap : Nat → Option SkipListNode) (i a : Nat) : Option (Option Nat) :=
  (heap a).bind (fun n => n.next[i]?)

def setNextAt (heap : Nat → Option SkipListNode) (i a : Nat) (v : Option Nat) : Option (Nat → Option SkipListNode) :=
  (heap a).bind fun n =>
    if i < n.next.length then some (update heap a (some { n with next := n.next.set i v })) else none

/-- The while loop on one level, for at most `fuel` turns. -/
def searchLevel (heap : Nat → Option SkipListNode) (key : Bytes) (i : Nat) : Nat → Nat → Option Nat
  | 0, _ => none
  | fuel + 1, cur => do
      match ← nextAt heap i cur with
      | none => return cur
      | some b =>
          let n ← heap b
          if n.key < key then searchLevel heap key i fuel b else return cur

/-- The levels below `i` from top to bottom, with the predecessor on each of them. -/
def search (heap : Nat → Option SkipListNode) (key : Bytes) (fuel : Nat) :
    Nat → Nat → List (Option Nat) → Option (Nat × List (Option Nat))
  | 0, cur, preds => some (cur, preds)
  | i + 1, cur, preds => do
      let cur ← searchLevel heap key i fuel cur
      search heap key fuel i cur (preds.set i (some cur))

/-- The same walk as Get makes it. -/
def seek (heap : Nat → Option SkipListNode) (key : Bytes) (fuel : Nat) : Nat → Nat → Option Nat
  | 0, cur => some cur
  | i + 1, cur => do
      let cur ← searchLevel heap key i fuel cur
      seek heap key fuel i cur

/-- update[i] = head_ for the levels from `low` up that lie below `i`. -/
def raiseLoop (head low : Nat) : Nat → List (Option Nat) → List (Option Nat)
  | 0, preds => preds
  | i + 1, preds => if i < low then preds else raiseLoop head low i (preds.set i (some head))

/-- Link the node in on `n` levels from level `i` up. -/
def linkLoop (preds : List (Option Nat)) (node : Nat) :
    Nat → Nat → (Nat → Option SkipListNode) → Option (Nat → Option SkipListNode)
  | 0, _, heap => some heap
  | n + 1, i, heap => do
      let p ← (preds[i]?).join
      let heap ← setNextAt heap i node (← nextAt heap i p)
      let heap ← setNextAt heap i p (some node)
      linkLoop preds node n (i + 1) heap

def insertNode (m : MemTable) (key value : Bytes) (preds : List (Option Nat)) (newLevel : Height) :
    Option MemTable := do
  let (preds, levelCount) :=
    if newLevel.val > m.levelCount then (raiseLoop m.head m.levelCount newLevel.val preds, newLevel.val)
    else (preds, m.levelCount)
  let node := m.fresh
  let heap := update m.heap node (some ⟨key, value, List.replicate newLevel.val none⟩)
  let heap ← linkLoop preds node newLevel.val 0 heap
  return { m with
    heap := heap, fresh := node + 1, levelCount := levelCount, count := m.count + 1,
    size := m.size + (key.length + value.length) }

/-- `newLevel` is what RandomLevel returns if it is asked. -/
def put (m : MemTable) (key value : Bytes) (newLevel : Height) : Option MemTable := do
  let (cur, preds) ← search m.heap key (m.count + 1) m.levelCount m.head (List.replicate maxLevel none)
  match ← nextAt m.heap 0 cur with
  | none => m.insertNode key value preds newLevel
  | some c =>
      let n ← m.heap c
      if n.key = key then
        return { m with
          heap := update m.heap c (some { n with value := value }), size := m.size - n.value.length + value.length }
      else m.insertNode key value preds newLevel

/-- The value, if the key is there. -/
def get (m : MemTable) (key : Bytes) : Option (Option Bytes) := do
  let cur ← seek m.heap key (m.count + 1) m.levelCount m.head
  match ← nextAt m.heap 0 cur with
  | none => return none
  | some c =>
      let n ← m.heap c
      if n.key = key then return some n.value else return none

def isEmpty (m : MemTable) : Bool := m.count == 0

/-- Delete the nodes of the lowest level. -/
def clearLoop : Nat → Option Nat → (Nat → Option SkipListNode) → Option (Nat → Option SkipListNode)
  | _, none, heap => some heap
  | 0, some _, _ => none
  | fuel + 1, some cur, heap => do
      let next ← nextAt heap 0 cur
      clearLoop fuel next (update heap cur none)

def clear (m : MemTable) : Option MemTable := do
  let heap ← clearLoop m.count (← nextAt m.heap 0 m.head) m.heap
  let h ← heap m.head
  return { m with
    heap := update heap m.head (some { h with next := List.replicate maxLevel none }),
    levelCount := 1, count := 0, size := 0 }

/-- MemTable::Iterator: the node it stands on. -/
abbrev Iterator := Option Nat

def newIterator (m : MemTable) : Option Iterator := nextAt m.heap 0 m.head

/-- `for (; iter->Valid(); iter->Next())` with a body that takes Key and Value. -/
def forEachLoop {B : Type} (m : MemTable) (body : B → Bytes → Bytes → Option B) : Nat → Iterator → B → Option B
  | _, none, b => some b
  | 0, some _, _ => none
  | fuel + 1, some cur, b => do
      let n ← m.heap cur
      let b ← body b n.key n.value
      forEachLoop m body fuel (← nextAt m.heap 0 cur) b

def forEach {B : Type} (m : MemTable) (body : B → Bytes → Bytes → Option B) (b : B) : Option B := do
  forEachLoop m body m.count (← m.newIterator) b

variable {heap heap' : Nat → Option SkipListNode} {key value : Bytes}

def ptr (heap : Nat → Option SkipListNode) (i a : Nat) : Option Nat := (nextAt heap i a).join

/-- A node up to its pointers. -/
def shape (heap : Nat → Option SkipListNode) (a : Nat) : Option (Bytes × Bytes × Nat) :=
  (heap a).map (fun n => (n.key, n.value, n.next.length))

theorem heap_of_shape {a height : Nat} (h : shape heap a = some (key, value, height)) :
    ∃ n, heap a = some n ∧ n.key = key ∧ n.value = value ∧ n.next.length = height := by
  obtain ⟨n, hn, he⟩ := Option.map_eq_some_iff.mp h
  simp only [Prod.mk.injEq] at he
  exact ⟨n, hn, he⟩

theorem nextAt_eq {a i height : Nat} (h : shape heap a = some (key, value, height)) (hi : i < height) :
    nextAt heap i a = some (ptr heap i a) := by
  obtain ⟨n, hn, -, -, hl⟩ := heap_of_shape h
  have hget : n.next[i]? = some n.next[i] := List.getElem?_eq_getElem (by omega)
  simp [ptr, nextAt, hn, hget]

theorem setNextAt_eq {a i height : Nat} (v : Option Nat) (h : shape heap a = some (key, value, height))
    (hi : i < height) :
    ∃ heap', setNextAt heap i a v = some heap' ∧ ptr heap' i = update (ptr heap i) a v ∧
      (∀ j, j ≠ i → ptr heap' j = ptr heap j) ∧ shape heap' = shape heap := by
  obtain ⟨n, hn, -, -, hl⟩ := heap_of_shape h
  refine ⟨update heap a (some { n with next := n.next.set i v }), ?_, ?_, ?_, ?_⟩
  · simp [setNextAt, hn, hl, hi]
  · funext b
    by_cases hb : b = a
    · subst hb
      simp [ptr, nextAt, hl, hi]
    · simp [ptr, nextAt, hb]
  · intro j hj
    funext b
    by_cases hb : b = a
    · subst hb
      simp [ptr, nextAt, hn, List.getElem?_set_ne (Ne.symm hj)]
    · simp [ptr, nextAt, hb]
  · funext b
    by_cases hb : b = a
    · subst hb
      simp [shape, hn]
    · simp [shape, hb]

/-- One node of the list behind the head. -/
structure Slot where
  addr : Nat
  key : Bytes
  value : Bytes
  height : Nat

def Slot.Stored (heap : Nat → Option SkipListNode) (s : Slot) : Prop :=
  shape heap s.addr = some (s.key, s.value, s.height)

/-- The slots that reach level `i`. -/
def level (i : Nat) (slots : List Slot) : List Slot := slots.filter (fun s => decide (i < s.height))

/-- The last of the nodes passed, the head if none. -/
def lastAddr (a : Nat) (slots : List Slot) : Nat := (a :: slots.map Slot.addr).getLast (by simp)

@[simp] theorem lastAddr_nil (a : Nat) : lastAddr a [] = a := rfl

@[simp] theorem lastAddr_append (a : Nat) (slots : List Slot) (s : Slot) : lastAddr a (slots ++ [s]) = s.addr := by
  simp [lastAddr]

theorem lastAddr_cons (a : Nat) (s : Slot) (slots : List Slot) : lastAddr a (s :: slots) = lastAddr s.addr slots := by
  simp [lastAddr]

theorem lastAddr_append_append (a : Nat) (xs ys : List Slot) : lastAddr a (xs ++ ys) = lastAddr (lastAddr a xs) ys := by
  induction xs generalizing a with
  | nil => rfl
  | cons x xs ih => rw [List.cons_append, lastAddr_cons, lastAddr_cons, ih]

theorem lastAddr_mem (a : Nat) (slots : List Slot) : lastAddr a slots ∈ a :: slots.map Slot.addr :=
  List.getLast_mem _

/-- On one level the walk passes the nodes below the key and stops in front of the rest. -/
theorem searchLevel_eq {i fuel cur : Nat} {ys zs : List Slot} (hp : Path (ptr heap i) cur ((ys ++ zs).map Slot.addr))
    (hn : ∀ a ∈ cur :: ys.map Slot.addr, nextAt heap i a = some (ptr heap i a))
    (hs : ∀ s ∈ ys ++ zs, s.Stored heap) (hy : ∀ s ∈ ys, s.key < key) (hz : ∀ s ∈ zs, ¬ s.key < key)
    (hf : ys.length < fuel) : searchLevel heap key i fuel cur = some (lastAddr cur ys) := by
  induction ys generalizing cur fuel with
  | nil =>
      obtain ⟨fuel, rfl⟩ := Nat.exists_eq_succ_of_ne_zero (by omega : fuel ≠ 0)
      rw [searchLevel, hn cur (by simp)]
      cases zs with
      | nil =>
          have hnone : ptr heap i cur = none := hp
          simp [hnone]
      | cons z zs =>
          have hsome : ptr heap i cur = some z.addr := hp.1
          obtain ⟨n, hh, hk, -⟩ := heap_of_shape (hs z (by simp))
          have hz' := hz z (by simp)
          simp [hsome, hh, hk, hz']
  | cons y ys ih =>
      obtain ⟨fuel, rfl⟩ := Nat.exists_eq_succ_of_ne_zero (by omega : fuel ≠ 0)
      have hsome : ptr heap i cur = some y.addr := hp.1
      obtain ⟨n, hh, hk, -⟩ := heap_of_shape (hs y (by simp))
      have hy' := hy y (by simp)
      have hrest := ih hp.2
        (fun a ha => hn a (List.mem_cons_of_mem _ ha))
        (fun s hs' => hs s (List.mem_cons_of_mem _ hs')) (fun s hs' => hy s (List.mem_cons_of_mem _ hs'))
        (by simpa using hf)
      rw [searchLevel, hn cur (by simp)]
      simp only [Option.bind_eq_bind, Option.bind_some, hsome, hh, hk, hy', if_true]
      rw [hrest, lastAddr_cons]

theorem exists_split (p : Slot → Bool) (a : Nat) (slots : List Slot) :
    ∃ xs ys, slots = xs ++ ys ∧ lastAddr a xs = lastAddr a (slots.filter p) := by
  induction slots using List.reverseRecOn with
  | nil => exact ⟨[], [], rfl, rfl⟩
  | append_singleton slots s ih =>
      obtain ⟨xs, ys, hs, hl⟩ := ih
      rw [List.filter_append]
      by_cases hp : p s = true
      · exact ⟨slots ++ [s], [], by simp, by simp [hp]⟩
      · exact ⟨xs, ys ++ [s], by simp [hs], by simpa [hp] using hl⟩

theorem level_append (i : Nat) (xs ys : List Slot) : level i (xs ++ ys) = level i xs ++ level i ys :=
  List.filter_append ..

theorem level_subset (i : Nat) (slots : List Slot) : level i slots ⊆ slots :=
  fun _ hs => (List.mem_filter.mp hs).1

theorem level_succ (i : Nat) (slots : List Slot) :
    level (i + 1) slots = (level i slots).filter (fun s => decide (i + 1 < s.height)) := by
  unfold level
  rw [List.filter_filter]
  congr 1
  funext s
  by_cases h : i + 1 < s.height
  · simp [h, Nat.lt_of_succ_lt h]
  · simp [h]

theorem level_zero {slots : List Slot} (h : ∀ s ∈ slots, 1 ≤ s.height) : level 0 slots = slots :=
  List.filter_eq_self.mpr (fun s hs => decide_eq_true (h s hs))

/-- A list of nodes as the levels of the heap link them, split at a key. -/
structure Split (heap : Nat → Option SkipListNode) (head levels : Nat) (key : Bytes) (below above : List Slot) :
    Prop where
  head_eq : ∃ k v, shape heap head = some (k, v, maxLevel)
  levels_le : levels ≤ maxLevel
  stored : ∀ s ∈ below ++ above, s.Stored heap
  heights : ∀ s ∈ below ++ above, 1 ≤ s.height ∧ s.height ≤ levels
  path : ∀ i, i < maxLevel → Path (ptr heap i) head ((level i (below ++ above)).map Slot.addr)
  below_lt : ∀ s ∈ below, s.key < key
  above_le : ∀ s ∈ above, ¬ s.key < key

variable {head levels fuel : Nat} {below above : List Slot}

theorem Split.nextAt_eq (h : Split heap head levels key below above) {i a : Nat} (hi : i < maxLevel)
    (ha : a ∈ head :: (level i (below ++ above)).map Slot.addr) : nextAt heap i a = some (ptr heap i a) := by
  rcases List.mem_cons.mp ha with rfl | ha
  · obtain ⟨k, v, hk⟩ := h.head_eq
    exact MemTable.nextAt_eq hk hi
  · obtain ⟨s, hs, rfl⟩ := List.mem_map.mp ha
    have hlt : i < s.height := by simpa using (List.mem_filter.mp hs).2
    exact MemTable.nextAt_eq (h.stored s (level_subset _ _ hs)) hlt

theorem Split.searchLevel_eq (h : Split heap head levels key below above) {i : Nat} (hi : i < maxLevel)
    (hf : below.length < fuel) :
    searchLevel heap key i fuel (lastAddr head (level (i + 1) below)) = some (lastAddr head (level i below)) := by
  obtain ⟨xs, ys, hxy, hl⟩ := exists_split (fun s => decide (i + 1 < s.height)) head (level i below)
  have hpath := h.path i hi
  have hsub : level i (below ++ above) ⊆ below ++ above := level_subset _ _
  have hnext := fun a ha => h.nextAt_eq (i := i) (a := a) hi ha
  rw [level_append, hxy, List.append_assoc] at hpath hsub hnext
  rw [List.map_append] at hpath
  have hdrop : Path (ptr heap i) (lastAddr head xs) ((ys ++ level i above).map Slot.addr) := hpath.drop
  rw [level_succ, ← hl, hxy, lastAddr_append_append]
  refine MemTable.searchLevel_eq hdrop ?_ ?_ ?_ ?_ ?_
  · intro a ha
    apply hnext
    rcases List.mem_cons.mp ha with rfl | ha
    · have hm := lastAddr_mem head xs
      simp only [List.map_append, List.mem_cons, List.mem_append] at hm ⊢
      tauto
    · simp only [List.map_append, List.mem_cons, List.mem_append]
      tauto
  · intro s hs
    exact h.stored s (hsub (List.mem_append_right _ hs))
  · intro s hs
    exact h.below_lt s (level_subset i _ (by rw [hxy]; exact List.mem_append_right _ hs))
  · intro s hs
    exact h.above_le s (level_subset i _ hs)
  · have hle : (level i below).length ≤ below.length := List.length_filter_le ..
    rw [hxy, List.length_append] at hle
    omega

theorem Split.seek_eq (h : Split heap head levels key below above) (hf : below.length < fuel) {n : Nat}
    (hn : n ≤ maxLevel) :
    seek heap key fuel n (lastAddr head (level n below)) = some (lastAddr head (level 0 below)) := by
  induction n with
  | zero => rfl
  | succ n ih => simp [seek, h.searchLevel_eq hn hf, ih (by omega)]

/-- The walk of Put also leaves the predecessor of each level it goes down. -/
theorem Split.search_eq (h : Split heap head levels key below above) (hf : below.length < fuel) {n : Nat}
    (hn : n ≤ maxLevel) {preds : List (Option Nat)} (hl : preds.length = maxLevel) :
    ∃ preds', search heap key fuel n (lastAddr head (level n below)) preds =
      some (lastAddr head (level 0 below), preds') ∧
      preds'.length = maxLevel ∧ (∀ i, i < n → preds'[i]? = some (some (lastAddr head (level i below)))) ∧
      ∀ i, n ≤ i → preds'[i]? = preds[i]? := by
  induction n generalizing preds with
  | zero => exact ⟨preds, rfl, hl, by simp, fun _ _ => rfl⟩
  | succ n ih =>
      have hset : (preds.set n (some (lastAddr head (level n below)))).length = maxLevel := by
        rw [List.length_set, hl]
      obtain ⟨preds', hs, hl', hlt, hge⟩ := ih (by omega) hset
      refine ⟨preds', ?_, hl', ?_, ?_⟩
      · simp [search, h.searchLevel_eq hn hf, hs]
      · intro i hi
        rcases Nat.lt_succ_iff_lt_or_eq.mp hi with hi | rfl
        · exact hlt i hi
        · rw [hge i le_rfl, List.getElem?_set_self (by omega)]
      · intro i hi
        rw [hge i (by omega), List.getElem?_set_ne (by omega)]

theorem linkLoop_eq {preds : List (Option Nat)} {node top n i : Nat} {p : Nat → Nat} {k v : Bytes} (hi : i + n = top)
    (hp : ∀ j, j < top → preds[j]? = some (some (p j))) (hnode : shape heap node = some (k, v, top))
    (hpred : ∀ j, j < top → ∃ k v height, shape heap (p j) = some (k, v, height) ∧ j < height) :
    ∃ heap', linkLoop preds node n i heap = some heap' ∧ shape heap' = shape heap ∧
      (∀ j, i ≤ j → j < top →
        ptr heap' j = update (update (ptr heap j) node (ptr heap j (p j))) (p j) (some node)) ∧
      ∀ j, ¬ (i ≤ j ∧ j < top) → ptr heap' j = ptr heap j := by
  induction n generalizing i heap with
  | zero => exact ⟨heap, rfl, rfl, by omega, fun _ _ => rfl⟩
  | succ n ih =>
      obtain ⟨k', v', height, hshape, hlt⟩ := hpred i (by omega)
      obtain ⟨h₁, e₁, hx₁, ho₁, hs₁⟩ := setNextAt_eq (i := i) (ptr heap i (p i)) hnode (by omega)
      obtain ⟨h₂, e₂, hx₂, ho₂, hs₂⟩ := setNextAt_eq (i := i) (some node) (by rw [hs₁]; exact hshape) hlt
      have hnode₂ : shape h₂ node = some (k, v, top) := by
        rw [hs₂, hs₁]
        exact hnode
      obtain ⟨h₃, e₃, hs₃, hx₃, ho₃⟩ := ih (i := i + 1) (by omega) hnode₂ (by rw [hs₂, hs₁]; exact hpred)
      refine ⟨h₃, ?_, by rw [hs₃, hs₂, hs₁], ?_, ?_⟩
      · simp only [linkLoop, hp i (by omega), Option.join_some, Option.bind_eq_bind, Option.bind_some,
          nextAt_eq hshape hlt, e₁, e₂]
        exact e₃
      · intro j hij hj
        rcases Nat.eq_or_lt_of_le hij with rfl | hij
        · rw [ho₃ i (by omega), hx₂, hx₁]
        · rw [hx₃ j hij hj, ho₂ j (by omega), ho₁ j (by omega)]
      · intro j hj
        rw [ho₃ j (by omega)]
        have hne : j ≠ i := by omega
        rw [ho₂ j hne, ho₁ j hne]

theorem raiseLoop_eq {head low n : Nat} {preds : List (Option Nat)} (hn : n ≤ preds.length) :
    (raiseLoop head low n preds).length = preds.length ∧
      ∀ j, (raiseLoop head low n preds)[j]? = if low ≤ j ∧ j < n then some (some head) else preds[j]? := by
  induction n generalizing preds with
  | zero => exact ⟨rfl, fun j => by simp [raiseLoop]⟩
  | succ n ih =>
      simp only [raiseLoop]
      split
      next hlt => exact ⟨rfl, fun j => by rw [if_neg (by omega)]⟩
      next hge =>
        have hset : n ≤ (preds.set n (some head)).length := by
          rw [List.length_set]
          omega
        obtain ⟨hl, hj⟩ := ih hset
        refine ⟨by rw [hl, List.length_set], ?_⟩
        intro j
        rw [hj j]
        by_cases hjn : j = n
        · subst hjn
          rw [if_neg (by omega), if_pos (by omega), List.getElem?_set_self (by omega)]
        · rw [List.getElem?_set_ne (Ne.symm hjn)]
          by_cases hlt : low ≤ j ∧ j < n
          · rw [if_pos hlt, if_pos (by omega)]
          · rw [if_neg hlt, if_neg (by omega)]

/-- The skip list links these slots, in ascending order of their keys. -/
structure Holds (m : MemTable) (slots : List Slot) : Prop where
  head_eq : ∃ k v, shape m.heap m.head = some (k, v, maxLevel)
  levels : 1 ≤ m.levelCount ∧ m.levelCount ≤ maxLevel
  stored : ∀ s ∈ slots, s.Stored m.heap
  heights : ∀ s ∈ slots, 1 ≤ s.height ∧ s.height ≤ m.levelCount
  path : ∀ i, i < maxLevel → Path (ptr m.heap i) m.head ((level i slots).map Slot.addr)
  ascending : slots.Pairwise (fun s t => s.key < t.key)
  nodup : (m.head :: slots.map Slot.addr).Nodup
  allocated : ∀ a ∈ m.head :: slots.map Slot.addr, a < m.fresh
  count_eq : m.count = slots.length
  size_eq : m.size = (slots.map (fun s => s.key.length + s.value.length)).sum

/-- No node is allocated but the head and those of the slots. -/
def Owns (m : MemTable) (slots : List Slot) : Prop := ∀ a, shape m.heap a ≠ none → a ∈ m.head :: slots.map Slot.addr

theorem Owns.create : create.Owns [] := by
  intro a ha
  by_contra hm
  have hne : a ≠ 0 := fun he => hm (by simp [he, MemTable.create])
  exact ha (by simp [shape, MemTable.create, hne])

theorem Holds.create : create.Holds [] := by
  constructor
  · exact ⟨[], [], rfl⟩
  · decide
  · simp
  · simp
  · intro i hi
    show ptr MemTable.create.heap i 0 = none
    simp [ptr, nextAt, MemTable.create, hi]
  · exact .nil
  · simp
  · simp [MemTable.create]
  · rfl
  · rfl

theorem Holds.split {m : MemTable} {slots : List Slot} (h : m.Holds slots) (key : Bytes) :
    ∃ below above, slots = below ++ above ∧ Split m.heap m.head m.levelCount key below above := by
  have hasc := h.ascending
  have hcut : ∃ below above : List Slot, slots = below ++ above ∧ (∀ s ∈ below, s.key < key) ∧
    ∀ s ∈ above, ¬ s.key < key := by
    have hasc' := hasc
    clear h hasc
    induction slots with
    | nil => exact ⟨[], [], rfl, by simp, by simp⟩
    | cons s slots ih =>
        obtain ⟨hs, hslots⟩ := List.pairwise_cons.mp hasc'
        by_cases hk : s.key < key
        · obtain ⟨below, above, rfl, hb, ha⟩ := ih hslots
          refine ⟨s :: below, above, rfl, ?_, ha⟩
          intro t ht
          rcases List.mem_cons.mp ht with rfl | ht
          · exact hk
          · exact hb t ht
        · refine ⟨[], s :: slots, rfl, by simp, ?_⟩
          intro t ht
          rcases List.mem_cons.mp ht with rfl | ht
          · exact hk
          · exact fun hlt => hk ((hs t ht).trans hlt)
  obtain ⟨below, above, rfl, hb, ha⟩ := hcut
  exact ⟨below, above, rfl, h.head_eq, h.levels.2, h.stored, h.heights, h.path, hb, ha⟩

theorem Split.nextAt_last (h : Split heap head levels key below above) :
    nextAt heap 0 (lastAddr head below) = some (above.head?.map Slot.addr) := by
  have hlevel (xs : List Slot) (hx : xs ⊆ below ++ above) : level 0 xs = xs :=
    level_zero (fun s hs => (h.heights s (hx hs)).1)
  have hb := hlevel _ (List.Subset.refl _)
  have hpath := h.path 0 (by decide)
  have hnext := h.nextAt_eq (i := 0) (a := lastAddr head below) (by decide)
  rw [hb] at hpath hnext
  rw [List.map_append] at hpath
  have hdrop : Path (ptr heap 0) (lastAddr head below) (above.map Slot.addr) := hpath.drop
  rw [hnext (by
    have hm := lastAddr_mem head below
    simp only [List.map_append, List.mem_cons, List.mem_append] at hm ⊢
    tauto)]
  cases above with
  | nil => exact congrArg some hdrop
  | cons s above => exact congrArg some hdrop.1

theorem Split.level_top (h : Split heap head levels key below above) : level levels below = [] :=
  List.filter_eq_nil_iff.mpr fun s hs => by
    have := (h.heights s (List.mem_append_left _ hs)).2
    simp only [decide_eq_true_eq]
    omega

theorem Split.level_zero_below (h : Split heap head levels key below above) : level 0 below = below :=
  level_zero (fun s hs => (h.heights s (List.mem_append_left _ hs)).1)

/-- The entries in key order. -/
def pairs (slots : List Slot) : List (Bytes × Bytes) := slots.map (fun s => (s.key, s.value))

theorem pairs_append (xs ys : List Slot) : pairs (xs ++ ys) = pairs xs ++ pairs ys := List.map_append

theorem Holds.get_eq {m : MemTable} {slots : List Slot} (h : m.Holds slots) (key : Bytes) :
    m.get key = some (SortedMap.findEntry key (pairs slots)) := by
  obtain ⟨below, above, rfl, hs⟩ := h.split key
  have hlen : below.length < m.count + 1 := by
    rw [h.count_eq, List.length_append]
    omega
  have hseek := hs.seek_eq hlen h.levels.2
  rw [hs.level_top, lastAddr_nil, hs.level_zero_below] at hseek
  rw [pairs_append, SortedMap.findEntry_append _ (by
    intro p hp
    obtain ⟨s, hs', rfl⟩ := List.mem_map.mp hp
    exact ne_of_lt (hs.below_lt s hs'))]
  simp only [MemTable.get, hseek, hs.nextAt_last, Option.bind_eq_bind, Option.bind_some]
  cases above with
  | nil => rfl
  | cons s above =>
      obtain ⟨n, hn, hk, hv, -⟩ := heap_of_shape (hs.stored s (by simp))
      have hcons : pairs (s :: above) = (s.key, s.value) :: pairs above := rfl
      simp only [List.head?_cons, Option.map_some, hn, Option.bind_some, hk, hv, hcons, Option.pure_def]
      by_cases he : s.key = key
      · rw [if_pos he, he, SortedMap.findEntry_cons_self]
      · rw [if_neg he, SortedMap.findEntry_cons_ne _ _ he, SortedMap.findEntry_eq_none]
        intro p hp
        obtain ⟨t, ht, rfl⟩ := List.mem_map.mp hp
        have hst := (List.pairwise_cons.mp (List.pairwise_append.mp h.ascending).2.1).1 t ht
        exact ne_of_gt (lt_of_le_of_lt (not_lt.mp (hs.above_le s (by simp))) hst)

theorem ptr_update_value {a : Nat} {n : SkipListNode} (hn : heap a = some n) (v : Bytes) (i : Nat) :
    ptr (update heap a (some { n with value := v })) i = ptr heap i := by
  funext b
  by_cases hb : b = a
  · subst hb
    simp [ptr, nextAt, hn]
  · simp [ptr, nextAt, hb]

theorem shape_update_value (a : Nat) (n : SkipListNode) (v : Bytes) :
    shape (update heap a (some { n with value := v })) = update (shape heap) a (some (n.key, v, n.next.length)) := by
  funext b
  by_cases hb : b = a
  · subst hb
    simp [shape]
  · simp [shape, hb]

/-- Case A of Put: the key is there and gets another value. -/
theorem Holds.update_value {m : MemTable} {below above : List Slot} {s : Slot} {n : SkipListNode}
    (h : m.Holds (below ++ s :: above)) (hn : m.heap s.addr = some n) (value : Bytes) :
    Holds { m with
        heap := update m.heap s.addr (some { n with value := value }), size := m.size - n.value.length + value.length }
      (below ++ { s with value := value } :: above) := by
  obtain ⟨hk, hv, hl⟩ : n.key = s.key ∧ n.value = s.value ∧ n.next.length = s.height := by
    obtain ⟨n', hn', he⟩ := heap_of_shape (h.stored s (by simp))
    obtain rfl := Option.some.inj (hn.symm.trans hn')
    exact he
  have haddr : (below ++ { s with value := value } :: above).map Slot.addr =
    (below ++ s :: above).map Slot.addr := by simp
  have hlevel (i : Nat) : (level i (below ++ { s with value := value } :: above)).map Slot.addr =
      (level i (below ++ s :: above)).map Slot.addr := by
    simp only [level, List.filter_append, List.filter_cons]
    split <;> simp
  have hnd := h.nodup
  have hhead : m.head ≠ s.addr := by
    intro he
    exact (List.nodup_cons.mp hnd).1 (by simp [he])
  have hslot : ∀ t ∈ below ++ above, t.addr ≠ s.addr := by
    have hp := (List.perm_middle.map Slot.addr).nodup_iff.mp (List.nodup_cons.mp hnd).2
    simp only [List.map_cons, List.nodup_cons, List.mem_map, not_exists, not_and] at hp
    exact hp.1
  constructor
  · show ∃ k v, shape (update m.heap s.addr (some { n with value := value })) m.head = some (k, v, maxLevel)
    rw [shape_update_value, update_of_ne hhead]
    exact h.head_eq
  · exact h.levels
  · intro t ht
    show shape (update m.heap s.addr (some { n with value := value })) t.addr = _
    rw [shape_update_value]
    rcases List.mem_cons.mp (List.perm_middle.mem_iff.mp ht) with rfl | ht
    · rw [update_self, hk, hl]
    · rw [update_of_ne (hslot t ht)]
      exact h.stored t (List.perm_middle.mem_iff.mpr (List.mem_cons_of_mem _ ht))
  · intro t ht
    rcases List.mem_cons.mp (List.perm_middle.mem_iff.mp ht) with rfl | ht
    · exact h.heights s (by simp)
    · exact h.heights t (List.perm_middle.mem_iff.mpr (List.mem_cons_of_mem _ ht))
  · intro i hi
    show Path (ptr (update m.heap s.addr (some { n with value := value })) i) m.head _
    rw [ptr_update_value hn, hlevel]
    exact h.path i hi
  · have hasc := h.ascending
    rw [List.pairwise_append, List.pairwise_cons] at hasc ⊢
    refine ⟨hasc.1, ⟨hasc.2.1.1, hasc.2.1.2⟩, ?_⟩
    intro a ha b hb
    rcases List.mem_cons.mp hb with rfl | hb
    · exact hasc.2.2 a ha s (by simp)
    · exact hasc.2.2 a ha b (by simp [hb])
  · rw [haddr]
    exact hnd
  · rw [haddr]
    exact h.allocated
  · simpa using h.count_eq
  · have hsize := h.size_eq
    simp only [List.map_append, List.map_cons, List.sum_append, List.sum_cons] at hsize ⊢
    rw [hsize, hv]
    omega

/-- The levels update[i] is asked for, those the list grows by included. -/
theorem Holds.raise {m : MemTable} {below above : List Slot} (h : m.Holds (below ++ above)) {preds : List (Option Nat)}
    (hlen : preds.length = maxLevel)
    (hpreds : ∀ i, i < m.levelCount → preds[i]? = some (some (lastAddr m.head (level i below)))) {top : Nat}
    (htop : top ≤ maxLevel) : ∃ preds',
      (if top > m.levelCount then (raiseLoop m.head m.levelCount top preds, top) else (preds, m.levelCount)) =
        (preds', max m.levelCount top) ∧
      ∀ j, j < top → preds'[j]? = some (some (lastAddr m.head (level j below))) := by
  by_cases hgt : top > m.levelCount
  · refine ⟨raiseLoop m.head m.levelCount top preds, by rw [if_pos hgt, max_eq_right hgt.le], ?_⟩
    intro j hj
    rw [(raiseLoop_eq (by omega)).2 j]
    by_cases hlow : m.levelCount ≤ j
    · have hnil : level j below = [] := by
        refine List.filter_eq_nil_iff.mpr ?_
        intro s hs
        have := (h.heights s (List.mem_append_left _ hs)).2
        simp only [decide_eq_true_eq]
        omega
      rw [if_pos ⟨hlow, hj⟩, hnil, lastAddr_nil]
    · rw [if_neg (by omega)]
      exact hpreds j (by omega)
  · exact ⟨preds, by rw [if_neg hgt, max_eq_left (by omega)], fun j hj => hpreds j (by omega)⟩

theorem Holds.level_nodup {m : MemTable} {below above : List Slot} (h : m.Holds (below ++ above)) (i : Nat) :
    (m.head :: ((level i below).map Slot.addr ++ (level i above).map Slot.addr)).Nodup := by
  rw [← List.map_append, ← level_append]
  exact h.nodup.sublist ((List.Sublist.map _ List.filter_sublist).cons_cons _)

theorem Holds.ne_fresh {m : MemTable} {slots : List Slot} (h : m.Holds slots) {a : Nat}
    (ha : a ∈ m.head :: slots.map Slot.addr) : a ≠ m.fresh := ne_of_lt (h.allocated a ha)

/-- A new node goes in on its own levels, behind the last node below its key; the other levels stay. -/
theorem Holds.path_insert {m : MemTable} {below above : List Slot} (h : m.Holds (below ++ above)) {i top : Nat}
    (hi : i < maxLevel) {next next' : Nat → Option Nat} (hnext : ∀ a, a ≠ m.fresh → next a = ptr m.heap i a)
    (hin : i < top → next' = update (update next m.fresh (next (lastAddr m.head (level i below))))
      (lastAddr m.head (level i below)) (some m.fresh)) (hout : top ≤ i → next' = next) {key value : Bytes} :
    Path next' m.head ((level i (below ++ ⟨m.fresh, key, value, top⟩ :: above)).map Slot.addr) := by
  have hmem (a : Nat) (ha : a ∈ (level i (below ++ above)).map Slot.addr) :
      a ∈ m.head :: (below ++ above).map Slot.addr :=
    List.mem_cons_of_mem _ (List.map_subset _ (level_subset i _) ha)
  have hpath : Path next m.head ((level i (below ++ above)).map Slot.addr) := by
    refine (h.path i hi).congr ?_
    intro a ha
    rcases List.mem_cons.mp ha with rfl | ha
    · exact hnext _ (h.ne_fresh (by simp))
    · exact hnext _ (h.ne_fresh (hmem a ha))
  rw [level_append, List.map_append] at hpath
  rw [level_append, level, level, List.filter_cons]
  by_cases htop : i < top
  · have hnd := h.level_nodup i
    rw [← List.cons_append] at hnd
    rw [if_pos (by simpa using htop), hin htop, List.map_append]
    refine hpath.insert (List.nodup_append.mp hnd).1 ?_ fun b hb hm => (List.nodup_append.mp hnd).2.2 b hm b hb rfl
    rw [← List.map_append, ← level_append]
    intro hm
    rcases List.mem_cons.mp hm with he | hm
    · exact h.ne_fresh (by simp) he.symm
    · exact h.ne_fresh (hmem _ hm) rfl
  · rw [if_neg (by simpa using htop), hout (Nat.le_of_not_lt htop), List.map_append]
    exact hpath

/-- Case B of Put: a node for a new key, linked in between `below` and `above`. -/
theorem Holds.insert_node {m : MemTable} {below above : List Slot} (h : m.Holds (below ++ above)) {key : Bytes}
    (hb : ∀ s ∈ below, s.key < key) (ha : ∀ s ∈ above, key < s.key) (value : Bytes) (newLevel : Height)
    {preds : List (Option Nat)} (hlen : preds.length = maxLevel)
    (hpreds : ∀ i, i < m.levelCount → preds[i]? = some (some (lastAddr m.head (level i below)))) :
    ∃ m', m.insertNode key value preds newLevel = some m' ∧
      m'.Holds (below ++ ⟨m.fresh, key, value, newLevel.val⟩ :: above) ∧
      (m.Owns (below ++ above) → m'.Owns (below ++ ⟨m.fresh, key, value, newLevel.val⟩ :: above)) := by
  obtain ⟨top, htop₁, htop₂⟩ := newLevel
  let node : Slot := ⟨m.fresh, key, value, top⟩
  let h₀ := update m.heap m.fresh (some ⟨key, value, List.replicate top none⟩)
  have hlevels := h.levels
  have hne (a : Nat) (ha : a ∈ m.head :: (below ++ above).map Slot.addr) : a ≠ m.fresh := h.ne_fresh ha
  have hshape (a : Nat) (ha : a ≠ m.fresh) : shape h₀ a = shape m.heap a := by simp [shape, h₀, ha]
  have hptr (i a : Nat) (ha : a ≠ m.fresh) : ptr h₀ i a = ptr m.heap i a := by simp [ptr, nextAt, h₀, ha]
  have hnode : shape h₀ m.fresh = some (key, value, top) := by simp [shape, h₀]
  obtain ⟨preds', hgrow, hpreds'⟩ := h.raise hlen hpreds htop₂
  have hlast (j : Nat) : lastAddr m.head (level j below) ∈ m.head :: (level j below).map Slot.addr := lastAddr_mem _ _
  have hsub (j : Nat) : level j below ⊆ below ++ above := fun s hs => List.mem_append_left _ (level_subset j _ hs)
  obtain ⟨heap', hlink, hshape', hptr', hptr''⟩ := linkLoop_eq (i := 0) (n := top) (Nat.zero_add top) hpreds' hnode
    (by
      intro j hj
      rcases List.mem_cons.mp (hlast j) with he | hm
      · obtain ⟨k, v, hkv⟩ := h.head_eq
        exact ⟨k, v, maxLevel, by rw [he, hshape _ (hne _ (by simp)), hkv], by omega⟩
      · obtain ⟨s, hs, he⟩ := List.mem_map.mp hm
        refine ⟨s.key, s.value, s.height, ?_, by simpa using (List.mem_filter.mp hs).2⟩
        rw [← he, hshape _ (hne _ (List.mem_cons_of_mem _ (List.mem_map_of_mem (hsub j hs))))]
        exact h.stored s (hsub j hs))
  have hperm : (below ++ node :: above).Perm (node :: (below ++ above)) := List.perm_middle
  have hmemNew (s : Slot) (hs : s ∈ below ++ node :: above) : s = node ∨ s ∈ below ++ above := by
    simpa using List.mem_cons.mp (hperm.mem_iff.mp hs)
  have hfresh : m.fresh ∉ m.head :: (below ++ above).map Slot.addr := fun hm => hne _ hm rfl
  have haddr : ((below ++ node :: above).map Slot.addr).Perm (m.fresh :: (below ++ above).map Slot.addr) := hperm.map _
  refine ⟨{ m with
    heap := heap', fresh := m.fresh + 1, levelCount := max m.levelCount top, count := m.count + 1,
    size := m.size + (key.length + value.length) }, ?_, ?_, ?_⟩
  · simp only [MemTable.insertNode, hgrow, Option.bind_eq_bind]
    change (linkLoop preds' m.fresh top 0 h₀).bind _ = _
    rw [hlink]
    rfl
  · constructor
    · show ∃ k v, shape heap' m.head = some (k, v, maxLevel)
      rw [hshape', hshape _ (hne _ (by simp))]
      exact h.head_eq
    · show 1 ≤ max m.levelCount top ∧ max m.levelCount top ≤ maxLevel
      omega
    · intro s hs
      show shape heap' s.addr = _
      rw [hshape']
      rcases hmemNew s hs with rfl | hs
      · exact hnode
      · rw [hshape _ (hne _ (List.mem_cons_of_mem _ (List.mem_map_of_mem hs)))]
        exact h.stored s hs
    · intro s hs
      show 1 ≤ s.height ∧ s.height ≤ max m.levelCount top
      rcases hmemNew s hs with rfl | hs
      · exact ⟨htop₁, le_max_right _ _⟩
      · have := h.heights s hs
        omega
    · intro i hi
      show Path (ptr heap' i) m.head ((level i (below ++ node :: above)).map Slot.addr)
      exact h.path_insert hi (fun a => hptr i a) (hptr' i (Nat.zero_le i)) fun hle => hptr'' i (by omega)
    · have hasc := h.ascending
      rw [List.pairwise_append] at hasc ⊢
      refine ⟨hasc.1, List.pairwise_cons.mpr ⟨fun s hs => ha s hs, hasc.2.1⟩, ?_⟩
      intro s hs t ht
      rcases List.mem_cons.mp ht with rfl | ht
      · exact hb s hs
      · exact hasc.2.2 s hs t ht
    · have hnd := List.nodup_cons.mp h.nodup
      simp only [List.mem_cons, not_or] at hfresh
      refine List.nodup_cons.mpr ⟨?_, haddr.nodup_iff.mpr (List.nodup_cons.mpr ⟨hfresh.2, hnd.2⟩)⟩
      intro hm
      rcases List.mem_cons.mp (haddr.mem_iff.mp hm) with he | hm
      · exact hfresh.1 he.symm
      · exact hnd.1 hm
    · intro a ha
      show a < m.fresh + 1
      rcases List.mem_cons.mp ha with rfl | ha
      · exact Nat.lt_succ_of_lt (h.allocated _ (by simp))
      · rcases List.mem_cons.mp (haddr.mem_iff.mp ha) with rfl | ha
        · exact Nat.lt_succ_self _
        · exact Nat.lt_succ_of_lt (h.allocated a (List.mem_cons_of_mem _ ha))
    · show m.count + 1 = _
      rw [hperm.length_eq, List.length_cons, h.count_eq]
    · show m.size + (key.length + value.length) = _
      have hsize := h.size_eq
      simp only [List.map_append, List.map_cons, List.sum_append, List.sum_cons] at hsize ⊢
      omega
  · intro howns a ha
    change shape heap' a ≠ none at ha
    by_cases hf : a = m.fresh
    · exact List.mem_cons_of_mem _ (haddr.mem_iff.mpr (by simp [hf]))
    · rw [hshape', hshape a hf] at ha
      rcases List.mem_cons.mp (howns a ha) with rfl | hm
      · exact List.mem_cons_self
      · exact List.mem_cons_of_mem _ (haddr.mem_iff.mpr (List.mem_cons_of_mem _ hm))

/-- Put keeps the list a skip list and does to its entries what an ordered map does. -/
theorem Holds.put {m : MemTable} {slots : List Slot} (h : m.Holds slots) (key value : Bytes) (newLevel : Height) :
    ∃ m' slots', m.put key value newLevel = some m' ∧ m'.Holds slots' ∧
      pairs slots' = SortedMap.insertEntry key value (pairs slots) ∧ (m.Owns slots → m'.Owns slots') := by
  obtain ⟨below, above, rfl, hs⟩ := h.split key
  have hlen : below.length < m.count + 1 := by
    rw [h.count_eq, List.length_append]
    omega
  have hnone : (List.replicate maxLevel (none : Option Nat)).length = maxLevel := List.length_replicate
  obtain ⟨preds, hsearch, hl, hpreds, -⟩ := hs.search_eq hlen h.levels.2 hnone
  rw [hs.level_top, lastAddr_nil, hs.level_zero_below] at hsearch
  have hinsert : SortedMap.insertEntry key value (pairs (below ++ above)) =
      pairs below ++ SortedMap.insertEntry key value (pairs above) := by
    rw [pairs_append, SortedMap.insertEntry_append]
    intro p hp
    obtain ⟨s, hs', rfl⟩ := List.mem_map.mp hp
    exact hs.below_lt s hs'
  simp only [MemTable.put, hsearch, hs.nextAt_last, Option.bind_eq_bind, Option.bind_some]
  cases above with
  | nil =>
      obtain ⟨m', hm, hm', howns⟩ := h.insert_node hs.below_lt (by simp) value newLevel hl hpreds
      exact ⟨m', _, hm, hm', by rw [hinsert, pairs_append]; rfl, howns⟩
  | cons s above =>
      obtain ⟨n, hn, hk, -⟩ := heap_of_shape (hs.stored s (by simp))
      simp only [List.head?_cons, Option.map_some, hn, Option.bind_some]
      have hcons : pairs (s :: above) = (s.key, s.value) :: pairs above := rfl
      by_cases he : s.key = key
      · rw [if_pos (hk.trans he)]
        refine ⟨_, _, rfl, h.update_value hn value, ?_, ?_⟩
        · rw [hinsert, hcons, SortedMap.insertEntry, if_neg (by rw [he]; exact lt_irrefl _), if_pos he.symm,
            pairs_append]
          simp [pairs, he]
        · intro howns a ha
          have hsame : shape m.heap a ≠ none := by
            intro hnone
            rw [shape_update_value] at ha
            by_cases has : a = s.addr
            · rw [has, shape, hn] at hnone
              cases hnone
            · rw [update_of_ne has] at ha
              exact ha hnone
          simpa using howns a hsame
      · have hlt : key < s.key := lt_of_le_of_ne (not_lt.mp (hs.above_le s (by simp))) (Ne.symm he)
        rw [if_neg (by rw [hk]; exact he)]
        obtain ⟨m', hm, hm', howns⟩ := h.insert_node hs.below_lt (by
          intro t ht
          rcases List.mem_cons.mp ht with rfl | ht
          · exact hlt
          · exact hlt.trans ((List.pairwise_cons.mp (List.pairwise_append.mp h.ascending).2.1).1 t ht)) value newLevel
              hl hpreds
        refine ⟨m', _, hm, hm', ?_, howns⟩
        rw [hinsert, hcons, SortedMap.insertEntry, if_pos hlt, pairs_append]
        rfl

theorem Holds.nextAt_zero {m : MemTable} {xs ys : List Slot} (h : m.Holds (xs ++ ys)) :
    nextAt m.heap 0 (lastAddr m.head xs) = some (ys.head?.map Slot.addr) := by
  have hlevel : level 0 (xs ++ ys) = xs ++ ys := level_zero (fun s hs => (h.heights s hs).1)
  have hpath := h.path 0 (by decide)
  rw [hlevel, List.map_append] at hpath
  have hdrop : Path (ptr m.heap 0) (lastAddr m.head xs) (ys.map Slot.addr) := hpath.drop
  have hnext : nextAt m.heap 0 (lastAddr m.head xs) = some (ptr m.heap 0 (lastAddr m.head xs)) := by
    rcases List.mem_cons.mp (lastAddr_mem m.head xs) with he | hm
    · obtain ⟨k, v, hkv⟩ := h.head_eq
      rw [he]
      exact nextAt_eq hkv (by decide)
    · obtain ⟨s, hs, he⟩ := List.mem_map.mp hm
      rw [← he]
      exact nextAt_eq (h.stored s (List.mem_append_left _ hs)) (h.heights s (List.mem_append_left _ hs)).1
  rw [hnext]
  cases ys with
  | nil => exact congrArg some hdrop
  | cons y ys => exact congrArg some hdrop.1

theorem Holds.forEachLoop_eq {B : Type} {m : MemTable} {xs ys : List Slot} (h : m.Holds (xs ++ ys))
    (body : B → Bytes → Bytes → Option B) {fuel : Nat} (hf : ys.length ≤ fuel) (b : B) :
    forEachLoop m body fuel (ys.head?.map Slot.addr) b = (pairs ys).foldlM (fun b p => body b p.1 p.2) b := by
  induction ys generalizing xs fuel b with
  | nil => cases fuel <;> rfl
  | cons y ys ih =>
      obtain ⟨fuel, rfl⟩ := Nat.exists_eq_succ_of_ne_zero (by simp at hf; omega : fuel ≠ 0)
      have hcut : xs ++ y :: ys = (xs ++ [y]) ++ ys := by simp
      obtain ⟨n, hn, hk, hv, -⟩ := heap_of_shape (h.stored y (by simp))
      rw [hcut] at h
      have hnext := h.nextAt_zero
      rw [lastAddr_append] at hnext
      have hcons : pairs (y :: ys) = (y.key, y.value) :: pairs ys := rfl
      simp only [List.head?_cons, Option.map_some, forEachLoop, hn, hk, hv, hnext, hcons, List.foldlM_cons,
        Option.bind_eq_bind, Option.bind_some]
      congr 1
      funext b'
      exact ih h (by simpa using hf) b'

theorem Holds.forEach_eq {B : Type} {m : MemTable} {slots : List Slot} (h : m.Holds slots)
    (body : B → Bytes → Bytes → Option B) (b : B) :
    m.forEach body b = (pairs slots).foldlM (fun b p => body b p.1 p.2) b := by
  have hall : m.Holds ([] ++ slots) := h
  have hnext : m.newIterator = some (slots.head?.map Slot.addr) := hall.nextAt_zero
  simp only [forEach, hnext, Option.bind_eq_bind, Option.bind_some]
  exact hall.forEachLoop_eq body h.count_eq.ge b

theorem Holds.isEmpty_eq {m : MemTable} {slots : List Slot} (h : m.Holds slots) :
    m.isEmpty = (pairs slots).isEmpty := by
  rw [isEmpty, h.count_eq]
  cases slots <;> rfl

/-- What deleting nodes leaves of the heap, seen from the nodes that stay. -/
theorem clearLoop_eq {m : MemTable} {xs ys : List Slot} (h : m.Holds (xs ++ ys)) {fuel : Nat} (hf : ys.length ≤ fuel)
    (hheap : ∀ s ∈ ys, heap s.addr = m.heap s.addr) :
    ∃ heap', clearLoop fuel (ys.head?.map Slot.addr) heap = some heap' ∧
      (∀ a, a ∉ ys.map Slot.addr → heap' a = heap a) ∧ ∀ a ∈ ys.map Slot.addr, heap' a = none := by
  induction ys generalizing xs fuel heap with
  | nil => exact ⟨heap, by cases fuel <;> rfl, fun _ _ => rfl, by simp⟩
  | cons y ys ih =>
      obtain ⟨fuel, rfl⟩ := Nat.exists_eq_succ_of_ne_zero (by simp at hf; omega : fuel ≠ 0)
      have hcut : xs ++ y :: ys = (xs ++ [y]) ++ ys := by simp
      have hnd : y.addr ∉ ys.map Slot.addr := by
        have hd := (List.nodup_cons.mp h.nodup).2
        rw [List.map_append] at hd
        exact (List.nodup_cons.mp (List.nodup_append.mp hd).2.1).1
      rw [hcut] at h
      have hnext := h.nextAt_zero
      rw [lastAddr_append] at hnext
      have hnext' : nextAt heap 0 y.addr = some (ys.head?.map Slot.addr) := by
        rw [← hnext, nextAt, nextAt, hheap y (by simp)]
      have hheap' : ∀ s ∈ ys, update heap y.addr none s.addr = m.heap s.addr := by
        intro s hs
        have hne : s.addr ≠ y.addr := fun he => hnd (he ▸ List.mem_map_of_mem hs)
        rw [update_of_ne hne]
        exact hheap s (by simp [hs])
      obtain ⟨heap', h', hother, hgone⟩ := ih h (by simpa using hf) hheap'
      refine ⟨heap', ?_, ?_, ?_⟩
      · simp only [List.head?_cons, Option.map_some, clearLoop, hnext', Option.bind_eq_bind, Option.bind_some]
        exact h'
      · intro a ha
        simp only [List.map_cons, List.mem_cons, not_or] at ha
        rw [hother a ha.2, update_of_ne ha.1]
      · intro a ha
        rcases List.mem_cons.mp ha with rfl | ha
        · rw [hother _ hnd, update_self]
        · exact hgone a ha

theorem Holds.clear {m : MemTable} {slots : List Slot} (h : m.Holds slots) :
    ∃ m', m.clear = some m' ∧ m'.Holds [] ∧ (m.Owns slots → m'.Owns []) := by
  have hall : m.Holds ([] ++ slots) := h
  have hnext : nextAt m.heap 0 m.head = some (slots.head?.map Slot.addr) := hall.nextAt_zero
  obtain ⟨heap', hc, hother, hgone⟩ := clearLoop_eq hall h.count_eq.ge (fun _ _ => rfl)
  obtain ⟨k, v, hkv⟩ := h.head_eq
  obtain ⟨n, hn, -, -, -⟩ := heap_of_shape hkv
  have hhead : heap' m.head = some n := by rw [hother _ (List.nodup_cons.mp h.nodup).1, hn]
  refine ⟨{ m with
    heap := update heap' m.head (some { n with next := List.replicate maxLevel none }),
    levelCount := 1, count := 0, size := 0 }, ?_, ?_, ?_⟩
  · simp only [MemTable.clear, hnext, hc, hhead, Option.bind_eq_bind, Option.bind_some]
    rfl
  · constructor
    · exact ⟨n.key, n.value, by simp [shape]⟩
    · exact ⟨le_rfl, by simp [maxLevel]⟩
    · simp
    · simp
    · intro i hi
      show ptr (update heap' m.head (some { n with next := List.replicate maxLevel none })) i m.head = none
      simp [ptr, nextAt, hi]
    · exact .nil
    · simp
    · simpa using h.allocated m.head (by simp)
    · rfl
    · rfl
  · intro howns a ha
    by_contra hm
    have hne : a ≠ m.head := fun he => hm (by simp [he])
    have hsame : heap' a = none := by
      by_cases hslot : a ∈ slots.map Slot.addr
      · exact hgone a hslot
      · rw [hother a hslot]
        by_contra hsome
        have hin := howns a (by simpa [shape] using hsome)
        simp [hne, hslot] at hin
    exact ha (by simp [shape, hne, hsame])

/-- The table as an ordered map. -/
def Maps (m : MemTable) (kvs : SortedMap Bytes Bytes) : Prop := ∃ slots, m.Holds slots ∧ pairs slots = kvs.entries

theorem Maps.create : create.Maps .empty := ⟨[], Holds.create, rfl⟩

theorem Maps.put {m : MemTable} {kvs : SortedMap Bytes Bytes} (h : m.Maps kvs) (key value : Bytes) (newLevel : Height) :
    ∃ m', m.put key value newLevel = some m' ∧ m'.Maps (kvs.insert key value) := by
  obtain ⟨slots, hs, hp⟩ := h
  obtain ⟨m', slots', hput, hs', hp', -⟩ := hs.put key value newLevel
  exact ⟨m', hput, slots', hs', by rw [hp', hp]; rfl⟩

theorem Maps.get {m : MemTable} {kvs : SortedMap Bytes Bytes} (h : m.Maps kvs) (key : Bytes) :
    m.get key = some (kvs.find key) := by
  obtain ⟨slots, hs, hp⟩ := h
  rw [hs.get_eq, hp]
  rfl

theorem Maps.isEmpty {m : MemTable} {kvs : SortedMap Bytes Bytes} (h : m.Maps kvs) :
    m.isEmpty = kvs.entries.isEmpty := by
  obtain ⟨slots, hs, hp⟩ := h
  rw [hs.isEmpty_eq, hp]

theorem Maps.forEach {B : Type} {m : MemTable} {kvs : SortedMap Bytes Bytes} (h : m.Maps kvs)
    (body : B → Bytes → Bytes → Option B) (b : B) :
    m.forEach body b = kvs.entries.foldlM (fun b p => body b p.1 p.2) b := by
  obtain ⟨slots, hs, hp⟩ := h
  rw [hs.forEach_eq, hp]

theorem Maps.clear {m : MemTable} {kvs : SortedMap Bytes Bytes} (h : m.Maps kvs) :
    ∃ m', m.clear = some m' ∧ m'.Maps .empty := by
  obtain ⟨slots, hs, -⟩ := h
  obtain ⟨m', hclear, hs', -⟩ := hs.clear
  exact ⟨m', hclear, [], hs', rfl⟩

theorem Maps.size {m : MemTable} {kvs : SortedMap Bytes Bytes} (h : m.Maps kvs) :
    m.size = (kvs.entries.map (fun p => p.1.length + p.2.length)).sum := by
  obtain ⟨slots, hs, hp⟩ := h
  rw [hs.size_eq, ← hp, pairs, List.map_map]
  rfl

end MemTable

end MiniStorage.Engine
