import MiniStorage.SortedMap
import Mathlib.Data.List.Induction

namespace MiniStorage

variable {K V : Type*} [LinearOrder K]

/-- Versions of a map on top of each other: one that is written to, and finished
ones from the oldest to the newest. -/
structure Generations (K V : Type*) [LinearOrder K] where
  top : SortedMap K V
  older : List (SortedMap K V)

namespace Generations

/-- The first generation that has the key answers. -/
def lookup : List (SortedMap K V) → K → Option V
  | [], _ => none
  | g :: gs, k => (g.find k).or (lookup gs k)

theorem lookup_append (xs ys : List (SortedMap K V)) (k : K) :
    lookup (xs ++ ys) k = (lookup xs k).or (lookup ys k) := by
  induction xs with
  | nil => rfl
  | cons x xs ih => rw [List.cons_append, lookup, lookup, ih, Option.or_assoc]

/-- Insert all entries of a list, the later ones over the earlier ones. -/
def insertAll (m : SortedMap K V) (ps : List (K × V)) : SortedMap K V := ps.foldl (fun m p => m.insert p.1 p.2) m

theorem find_insertAll (m : SortedMap K V) {ps : List (K × V)} (h : ps.Pairwise (fun p q => p.1 < q.1)) (k : K) :
    (insertAll m ps).find k = (SortedMap.findEntry k ps).or (m.find k) := by
  induction ps generalizing m with
  | nil => rfl
  | cons p ps ih =>
      obtain ⟨a, v⟩ := p
      obtain ⟨hp, hps⟩ := List.pairwise_cons.mp h
      have hstep := ih (m.insert a v) hps
      rw [insertAll, List.foldl_cons]
      rw [insertAll] at hstep
      rw [hstep, SortedMap.find_insert]
      by_cases hk : k = a
      · subst hk
        have hno : SortedMap.findEntry k ps = none :=
          SortedMap.findEntry_eq_none (fun q hq => ne_of_gt (hp q hq))
        rw [if_pos rfl, hno, SortedMap.findEntry_cons_self]
        rfl
      · rw [if_neg hk, SortedMap.findEntry_cons_ne _ _ (Ne.symm hk)]

theorem insertAll_append (m : SortedMap K V) (ps qs : List (K × V)) :
    insertAll m (ps ++ qs) = insertAll (insertAll m ps) qs := List.foldl_append

theorem insertAll_collected (m : SortedMap K V) (ps : List (K × V)) :
    insertAll m (insertAll .empty ps).entries = insertAll m ps := by
  induction ps using List.reverseRecOn with
  | nil => rfl
  | append_singleton ps p ih =>
      rw [insertAll_append, insertAll_append, ← ih]
      apply SortedMap.ext_find
      intro k
      rw [find_insertAll _ (SortedMap.ascending _)]
      show ((SortedMap.insert _ p.1 p.2).find k).or _ = (SortedMap.insert _ p.1 p.2).find k
      rw [SortedMap.find_insert, SortedMap.find_insert, find_insertAll _ (SortedMap.ascending _)]
      by_cases hk : k = p.1
      · rw [if_pos hk, if_pos hk]
        rfl
      · rw [if_neg hk, if_neg hk]
        rfl

/-- One map of all generations, which come oldest first. -/
def merge (gs : List (SortedMap K V)) : SortedMap K V := gs.foldl (fun m g => insertAll m g.entries) .empty

theorem merge_append (gs : List (SortedMap K V)) (g : SortedMap K V) :
    merge (gs ++ [g]) = insertAll (merge gs) g.entries := by
  rw [merge, List.foldl_append]
  rfl

theorem find_merge (gs : List (SortedMap K V)) (k : K) : (merge gs).find k = lookup gs.reverse k := by
  induction gs using List.reverseRecOn with
  | nil => rfl
  | append_singleton gs g ih =>
      rw [merge_append, find_insertAll _ g.ascending, ih, List.reverse_append]
      rfl

variable (dead : V → Bool)

/-- The entries whose value is no tombstone. -/
def live (m : SortedMap K V) : SortedMap K V := ⟨m.entries.filter (fun p => !dead p.2), m.ascending.filter _⟩

theorem find_live (m : SortedMap K V) (k : K) : (live dead m).find k = (m.find k).filter (fun v => !dead v) := by
  apply Option.ext
  intro v
  rw [SortedMap.find_eq_some, live, List.mem_filter, ← SortedMap.find_eq_some]
  simp [Option.filter_eq_some_iff]

/-- What the generations say about a key. -/
def view (g : Generations K V) (k : K) : Option V :=
  ((g.top.find k).or (lookup g.older.reverse k)).filter (fun v => !dead v)

def empty : Generations K V := ⟨.empty, []⟩

def write (g : Generations K V) (k : K) (v : V) : Generations K V := { g with top := g.top.insert k v }

/-- The top generation is finished. -/
def flush (g : Generations K V) : Generations K V := ⟨.empty, g.older ++ [g.top]⟩

/-- All finished generations become one, without the tombstones. -/
def compact (g : Generations K V) : Generations K V := { g with older := [live dead (merge g.older)] }

@[simp] theorem view_empty (k : K) : (empty : Generations K V).view dead k = none := rfl

theorem view_write (g : Generations K V) (k : K) (v : V) (a : K) :
    (g.write k v).view dead a = if a = k then (some v).filter (fun v => !dead v) else g.view dead a := by
  simp only [view, write, SortedMap.find_insert]
  split
  · rfl
  · rfl

theorem view_flush (g : Generations K V) : g.flush.view dead = g.view dead := by
  funext k
  simp only [view, flush, List.reverse_append]
  rfl

/-- Nothing lies below the oldest generation, so its tombstones hide nothing. -/
theorem view_compact (g : Generations K V) : (g.compact dead).view dead = g.view dead := by
  funext k
  have hone : lookup [live dead (merge g.older)] k = (lookup g.older.reverse k).filter (fun v => !dead v) := by
    rw [lookup, find_live, find_merge]
    exact Option.or_none
  simp only [view, compact, List.reverse_singleton, hone]
  cases g.top.find k with
  | some v => rfl
  | none => simp [Option.filter_filter]

/-- The one map in place of any number of the oldest generations, and still below the rest of them:
no older version comes to light. -/
theorem lookup_compacted (gs : List (SortedMap K V)) (n : Nat) (k : K) :
    (lookup (live dead (merge gs) :: (gs.drop n).reverse) k).filter (fun v => !dead v) =
      (lookup gs.reverse k).filter (fun v => !dead v) := by
  have hall : lookup gs.reverse k = (lookup (gs.drop n).reverse k).or (lookup (gs.take n).reverse k) := by
    rw [← lookup_append, ← List.reverse_append, List.take_append_drop]
  rw [lookup, find_live, find_merge, hall]
  cases lookup (gs.drop n).reverse k with
  | none => simp [Option.filter_filter]
  | some v =>
      rw [Option.some_or]
      by_cases hv : dead v = true
      · simp [Option.filter, hv]
      · simp [Option.filter, hv]

end Generations

end MiniStorage
