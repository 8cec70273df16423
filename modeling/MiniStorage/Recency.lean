import Mathlib.Data.List.Induction
import Mathlib.Data.List.Nodup
import Mathlib.Order.Lattice

namespace MiniStorage.Recency

variable {K V : Type*} [DecidableEq K]

inductive Call (K V : Type*)
  | get (k : K)
  | insert (k : K) (v : V)
  | clear

def find (k : K) (l : List (K × V)) : Option V := (l.find? (fun p => p.1 = k)).map Prod.snd

/-- A key that is used goes to the front. -/
def use (k : K) (v : V) (l : List (K × V)) : List (K × V) := (k, v) :: l.filter (fun p => p.1 ≠ k)

/-- What a call makes of a recency list that has room for `cap` pairs. -/
def step (cap : Nat) (l : List (K × V)) : Call K V → List (K × V)
  | .get k => (find k l).elim l (fun v => use k v l)
  | .insert k v => (use k v l).take cap
  | .clear => []

/-- What a call makes of the keys in the order of their last uses, where a Get is a use if the key is
among the first `cap` of them. -/
def useKey (cap : Nat) (ks : List K) : Call K V → List K
  | .get k => if k ∈ ks.take cap then k :: ks.filter (fun a => a ≠ k) else ks
  | .insert k _ => k :: ks.filter (fun a => a ≠ k)
  | .clear => []

/-- The distinct keys inserted or hit since the last Clear, the last one first. -/
def order (cap : Nat) (calls : List (Call K V)) : List K := calls.foldl (useKey cap) []

def insertedBy (k : K) (last : Option V) : Call K V → Option V
  | .get _ => last
  | .insert a v => if a = k then some v else last
  | .clear => none

/-- The data last inserted for the key since the last Clear. -/
def lastInserted (k : K) (calls : List (Call K V)) : Option V := calls.foldl (insertedBy k) none

def countGet (n : Nat) : Call K V → Nat
  | .get _ => n + 1
  | .insert _ _ => n
  | .clear => 0

/-- The number of Gets since the last Clear. -/
def gets (calls : List (Call K V)) : Nat := calls.foldl countGet 0

variable {cap : Nat} {l : List (K × V)} {k : K} {v : V}

theorem find_eq_some (h : find k l = some v) : (k, v) ∈ l := by
  obtain ⟨p, hp, rfl⟩ := Option.map_eq_some_iff.mp h
  have hk : p.1 = k := by simpa using List.find?_some hp
  rw [← hk]
  exact List.mem_of_find?_eq_some hp

theorem find_eq_none : find k l = none ↔ k ∉ l.map Prod.fst := by
  rw [find, Option.map_eq_none_iff, List.find?_eq_none, List.mem_map]
  constructor
  · rintro h ⟨p, hp, rfl⟩
    exact h p hp (by simp)
  · intro h p hp hk
    exact h ⟨p, hp, by simpa using hk⟩

theorem filter_of_not_mem (h : k ∉ l.map Prod.fst) : l.filter (fun p => p.1 ≠ k) = l := by
  apply List.filter_eq_self.mpr
  intro p hp
  have hne : p.1 ≠ k := fun he => h (he ▸ List.mem_map_of_mem hp)
  simpa using hne

theorem use_of_not_mem (h : k ∉ l.map Prod.fst) : use k v l = (k, v) :: l := by
  rw [use, filter_of_not_mem h]

/-- The pair of the key comes out of its place. -/
theorem use_append {xs ys : List (K × V)} {w : V} (h : ((xs ++ (k, w) :: ys).map Prod.fst).Nodup) :
    use k v (xs ++ (k, w) :: ys) = (k, v) :: (xs ++ ys) := by
  have hout : k ∉ (xs ++ ys).map Prod.fst := (List.nodup_cons.mp ((List.perm_middle.map Prod.fst).nodup_iff.mp h)).1
  have hfilter : (xs ++ (k, w) :: ys).filter (fun p => p.1 ≠ k) = (xs ++ ys).filter (fun p => p.1 ≠ k) := by simp
  rw [use, hfilter, filter_of_not_mem hout]

theorem map_fst_use (k : K) (v : V) (l : List (K × V)) :
    (use k v l).map Prod.fst = k :: (l.map Prod.fst).filter (fun a => a ≠ k) := by
  rw [use, List.map_cons, List.filter_map]
  rfl

theorem nodup_use (k : K) (v : V) (h : (l.map Prod.fst).Nodup) : ((use k v l).map Prod.fst).Nodup := by
  rw [map_fst_use]
  exact List.nodup_cons.mpr ⟨by simp, h.filter _⟩

/-- Of a list in which only one pair can have the key, the first pairs without it are among the first ones and one more. -/
theorem take_filter (h : (l.map Prod.fst).Nodup) (n : Nat) :
    (l.filter (fun p => p.1 ≠ k)).take n = ((l.take (n + 1)).filter (fun p => p.1 ≠ k)).take n := by
  induction l generalizing n with
  | nil => simp
  | cons p l ih =>
      obtain ⟨hp, hl⟩ := List.nodup_cons.mp h
      by_cases hk : p.1 = k
      · have hout : k ∉ l.map Prod.fst := hk ▸ hp
        have hout' : k ∉ (l.take n).map Prod.fst := fun hm => hout (List.map_subset _ (List.take_subset n l) hm)
        rw [List.take_succ_cons, List.filter_cons_of_neg (by simpa using hk),
          List.filter_cons_of_neg (by simpa using hk), filter_of_not_mem hout, filter_of_not_mem hout', List.take_take, Nat.min_self]
      · rw [List.take_succ_cons, List.filter_cons_of_pos (by simpa using hk),
          List.filter_cons_of_pos (by simpa using hk)]
        cases n with
        | zero => rfl
        | succ n => rw [List.take_succ_cons, List.take_succ_cons, ih hl n]

/-- What is used behind the first `cap` pairs makes no difference to them. -/
theorem take_use (hcap : 0 < cap) (h : (l.map Prod.fst).Nodup) :
    (use k v l).take cap = (use k v (l.take cap)).take cap := by
  obtain ⟨n, rfl⟩ := Nat.exists_eq_succ_of_ne_zero hcap.ne'
  rw [use, use, List.take_succ_cons, List.take_succ_cons, take_filter h]

theorem length_use_of_mem (h : (k, v) ∈ l) : (use k v l).length ≤ l.length := by
  have hlt : (l.filter (fun p => p.1 ≠ k)).length < l.length := by
    apply List.length_filter_lt_length_iff_exists.mpr
    exact ⟨(k, v), h, by simp⟩
  rw [use, List.length_cons]
  exact hlt

/-- Every key that was used since the last Clear with the data last inserted for it. -/
structure Remembers (cap : Nat) (calls : List (Call K V)) (all : List (K × V)) : Prop where
  keys : all.map Prod.fst = order cap calls
  nodup : (all.map Prod.fst).Nodup
  inserted : ∀ p ∈ all, lastInserted p.1 calls = some p.2
  window : calls.foldl (step cap) [] = all.take cap

theorem order_append (cap : Nat) (calls : List (Call K V)) (c : Call K V) :
    order cap (calls ++ [c]) = useKey cap (order cap calls) c := by
  rw [order, List.foldl_append]
  rfl

theorem lastInserted_append (k : K) (calls : List (Call K V)) (c : Call K V) :
    lastInserted k (calls ++ [c]) = insertedBy k (lastInserted k calls) c := by
  rw [lastInserted, List.foldl_append]
  rfl

variable {calls : List (Call K V)} {all : List (K × V)}

theorem Remembers.insert (h : Remembers cap calls all) (hcap : 0 < cap) (k : K) (v : V) :
    Remembers cap (calls ++ [.insert k v]) (use k v all) := by
  constructor
  · rw [map_fst_use, h.keys, order_append]
    rfl
  · exact nodup_use k v h.nodup
  · intro p hp
    rw [lastInserted_append, insertedBy]
    rcases List.mem_cons.mp hp with rfl | hp
    · rw [if_pos rfl]
    · obtain ⟨hmem, hne⟩ := List.mem_filter.mp hp
      have hne : k ≠ p.1 := fun he => by simp [he] at hne
      rw [if_neg hne]
      exact h.inserted p hmem
  · rw [List.foldl_append, h.window, List.foldl_cons, List.foldl_nil, step, take_use hcap h.nodup]

theorem Remembers.hit (h : Remembers cap calls all) (hcap : 0 < cap) (hv : find k (all.take cap) = some v) :
    Remembers cap (calls ++ [.get k]) (use k v all) := by
  have hwin := find_eq_some hv
  have hin : k ∈ (order cap calls).take cap := by
    rw [← h.keys, ← List.map_take]
    exact List.mem_map_of_mem hwin
  constructor
  · rw [map_fst_use, h.keys, order_append, useKey, if_pos hin]
  · exact nodup_use k v h.nodup
  · intro p hp
    rw [lastInserted_append, insertedBy]
    rcases List.mem_cons.mp hp with rfl | hp
    · exact h.inserted _ (List.take_subset cap all hwin)
    · exact h.inserted p (List.mem_filter.mp hp).1
  · have hlen : (use k v (all.take cap)).length ≤ cap := le_trans (length_use_of_mem hwin) (List.length_take_le cap all)
    rw [List.foldl_append, h.window, List.foldl_cons, List.foldl_nil, step, hv, Option.elim_some, take_use hcap h.nodup,
      List.take_of_length_le hlen]

theorem Remembers.miss (h : Remembers cap calls all) (hv : find k (all.take cap) = none) :
    Remembers cap (calls ++ [.get k]) all := by
  have hout : k ∉ (order cap calls).take cap := by
    rw [← h.keys, ← List.map_take]
    exact find_eq_none.mp hv
  constructor
  · rw [h.keys, order_append, useKey, if_neg hout]
  · exact h.nodup
  · intro p hp
    rw [lastInserted_append]
    exact h.inserted p hp
  · rw [List.foldl_append, h.window, List.foldl_cons, List.foldl_nil, step, hv]
    rfl

theorem remembers_clear (cap : Nat) (calls : List (Call K V)) : Remembers cap (calls ++ [.clear]) [] := by
  constructor
  · rw [order_append]
    rfl
  · exact List.nodup_nil
  · intro p hp
    cases hp
  · rw [List.foldl_append, List.take_nil]
    rfl

theorem exists_remembers (hcap : 0 < cap) (calls : List (Call K V)) : ∃ all, Remembers cap calls all := by
  induction calls using List.reverseRecOn with
  | nil => exact ⟨[], rfl, List.nodup_nil, by simp, by simp⟩
  | append_singleton calls c ih =>
      obtain ⟨all, h⟩ := ih
      cases c with
      | get k =>
          cases hv : find k (all.take cap) with
          | none => exact ⟨all, h.miss hv⟩
          | some v => exact ⟨use k v all, h.hit hcap hv⟩
      | insert k v => exact ⟨use k v all, h.insert hcap k v⟩
      | clear => exact ⟨[], remembers_clear cap calls⟩

/-- A recency list finds a key exactly when it is one of the first `cap` in the order of last uses. -/
theorem find_foldl_step (hcap : 0 < cap) (calls : List (Call K V)) (k : K)
    [Decidable (k ∈ (order cap calls).take cap)] :
    find k (calls.foldl (step cap) []) = if k ∈ (order cap calls).take cap then lastInserted k calls else none := by
  obtain ⟨all, h⟩ := exists_remembers hcap calls
  have hkeys : (order cap calls).take cap = (all.take cap).map Prod.fst := by rw [← h.keys, List.map_take]
  rw [h.window]
  cases hv : find k (all.take cap) with
  | none =>
      have hout : k ∉ (order cap calls).take cap := hkeys ▸ find_eq_none.mp hv
      rw [if_neg hout]
  | some v =>
      have hmem := find_eq_some hv
      have hin : k ∈ (order cap calls).take cap := hkeys ▸ List.mem_map_of_mem hmem
      rw [if_pos hin]
      exact (h.inserted _ (List.take_subset cap all hmem)).symm

theorem length_foldl_step (hcap : 0 < cap) (calls : List (Call K V)) : (calls.foldl (step cap) []).length ≤ cap := by
  obtain ⟨all, h⟩ := exists_remembers hcap calls
  rw [h.window]
  exact List.length_take_le cap all

end MiniStorage.Recency
