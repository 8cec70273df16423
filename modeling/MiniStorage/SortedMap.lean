import Mathlib.Order.Defs.LinearOrder
import Mathlib.Order.Lattice
import Mathlib.Data.List.Pairwise

namespace MiniStorage

variable {K V : Type*} [LinearOrder K]

/-- An ordered map as the list of its entries, each key once and in ascending order. -/
@[ext] structure SortedMap (K V : Type*) [LinearOrder K] where
  entries : List (K × V)
  ascending : entries.Pairwise (fun p q => p.1 < q.1)

namespace SortedMap

def insertEntry (k : K) (v : V) : List (K × V) → List (K × V)
  | [] => [(k, v)]
  | p :: ps =>
      if k < p.1 then (k, v) :: p :: ps
      else if k = p.1 then (k, v) :: ps
      else p :: insertEntry k v ps

theorem mem_insertEntry {k : K} {v : V} {ps : List (K × V)} {q : K × V} (h : q ∈ insertEntry k v ps) :
    q = (k, v) ∨ q ∈ ps := by
  induction ps with
  | nil => simpa [insertEntry] using h
  | cons p ps ih =>
      simp only [insertEntry] at h
      split at h
      · simpa using h
      · split at h
        · rcases List.mem_cons.mp h with h | h
          · exact .inl h
          · exact .inr (List.mem_cons_of_mem _ h)
        · rcases List.mem_cons.mp h with rfl | h
          · exact .inr List.mem_cons_self
          · exact (ih h).imp_right (List.mem_cons_of_mem _)

theorem ascending_insertEntry {k : K} {v : V} {ps : List (K × V)} (h : ps.Pairwise (fun p q => p.1 < q.1)) :
    (insertEntry k v ps).Pairwise (fun p q => p.1 < q.1) := by
  induction ps with
  | nil => simp [insertEntry]
  | cons p ps ih =>
      obtain ⟨hp, hps⟩ := List.pairwise_cons.mp h
      simp only [insertEntry]
      split
      next hk =>
        refine List.pairwise_cons.mpr ⟨?_, h⟩
        intro q hq
        rcases List.mem_cons.mp hq with rfl | hq
        · exact hk
        · exact hk.trans (hp q hq)
      next hk =>
        split
        next he => exact List.pairwise_cons.mpr ⟨fun q hq => he ▸ hp q hq, hps⟩
        next he =>
          have hlt : p.1 < k := lt_of_le_of_ne (not_lt.mp hk) (Ne.symm he)
          refine List.pairwise_cons.mpr ⟨?_, ih hps⟩
          intro q hq
          rcases mem_insertEntry hq with rfl | hq
          · exact hlt
          · exact hp q hq

def empty : SortedMap K V := ⟨[], .nil⟩

def insert (m : SortedMap K V) (k : K) (v : V) : SortedMap K V :=
  ⟨insertEntry k v m.entries, ascending_insertEntry m.ascending⟩

def findEntry (k : K) (ps : List (K × V)) : Option V := (ps.find? (fun p => p.1 = k)).map Prod.snd

def find (m : SortedMap K V) (k : K) : Option V := findEntry k m.entries

def erase (m : SortedMap K V) (k : K) : SortedMap K V :=
  ⟨m.entries.filter (fun p => p.1 ≠ k), m.ascending.filter _⟩

/-- The first entry whose key is not below `k`. -/
def lowerBound (m : SortedMap K V) (k : K) : Option (K × V) :=
  m.entries.find? (fun p => !decide (p.1 < k))

theorem findEntry_eq_none {k : K} {ps : List (K × V)} (h : ∀ p ∈ ps, p.1 ≠ k) : findEntry k ps = none := by
  simpa [findEntry] using h

theorem findEntry_append {k : K} {ps : List (K × V)} (qs : List (K × V)) (h : ∀ p ∈ ps, p.1 ≠ k) :
    findEntry k (ps ++ qs) = findEntry k qs := by
  have hn : ps.find? (fun p => p.1 = k) = none := List.find?_eq_none.mpr (by simpa using h)
  simp [findEntry, List.find?_append, hn]

theorem findEntry_append_left {k : K} (ps : List (K × V)) {qs : List (K × V)} (h : ∀ q ∈ qs, q.1 ≠ k) :
    findEntry k (ps ++ qs) = findEntry k ps := by
  have hn : qs.find? (fun p => p.1 = k) = none := List.find?_eq_none.mpr (by simpa using h)
  simp [findEntry, List.find?_append, hn]

@[simp] theorem findEntry_cons_self (k : K) (v : V) (ps : List (K × V)) : findEntry k ((k, v) :: ps) = some v := by
  simp [findEntry]

theorem findEntry_cons_ne {k a : K} (v : V) (ps : List (K × V)) (h : a ≠ k) :
    findEntry k ((a, v) :: ps) = findEntry k ps := by
  simp [findEntry, h]

theorem insertEntry_append {k : K} {v : V} {ps : List (K × V)} (qs : List (K × V)) (h : ∀ p ∈ ps, p.1 < k) :
    insertEntry k v (ps ++ qs) = ps ++ insertEntry k v qs := by
  induction ps with
  | nil => rfl
  | cons p ps ih =>
      have hp : p.1 < k := h p List.mem_cons_self
      simp only [List.cons_append, insertEntry, not_lt_of_gt hp, if_false, ne_of_gt hp]
      rw [ih (fun q hq => h q (List.mem_cons_of_mem _ hq))]

@[simp] theorem find_empty (k : K) : (empty : SortedMap K V).find k = none := rfl

theorem find_insert (m : SortedMap K V) (k : K) (v : V) (a : K) [Decidable (a = k)] :
    (m.insert k v).find a = if a = k then some v else m.find a := by
  obtain ⟨ps, hps⟩ := m
  simp only [find, findEntry, insert]
  induction ps with
  | nil => by_cases ha : a = k <;> simp [insertEntry, ha, eq_comm]
  | cons p ps ih =>
      obtain ⟨hp, hps⟩ := List.pairwise_cons.mp hps
      simp only [insertEntry]
      split
      next hk =>
        by_cases ha : a = k
        · simp [ha]
        · simp [ha, Ne.symm ha]
      next hk =>
        split
        next he =>
          by_cases ha : a = k
          · simp [ha]
          · simp [ha, Ne.symm ha, ← he]
        next he =>
          by_cases hpa : p.1 = a
          · subst hpa
            simp [Ne.symm he]
          · simpa [hpa] using ih hps

theorem find_eq_some {m : SortedMap K V} {k : K} {v : V} : m.find k = some v ↔ (k, v) ∈ m.entries := by
  obtain ⟨ps, hps⟩ := m
  simp only [find, findEntry]
  induction ps with
  | nil => simp
  | cons p ps ih =>
      obtain ⟨hp, hps⟩ := List.pairwise_cons.mp hps
      by_cases hpk : p.1 = k
      · have hne : (k, v) ∉ ps := fun h => absurd (hp _ h) (by simp [hpk])
        rcases p with ⟨a, b⟩
        obtain rfl : a = k := hpk
        simp [hne, eq_comm]
      · have hne : (k, v) ≠ p := fun h => hpk (by rw [← h])
        simpa [hpk, hne] using ih hps

theorem lowerBound_eq_none {m : SortedMap K V} {k : K} (h : ∀ p ∈ m.entries, p.1 < k) : m.lowerBound k = none := by
  simpa [lowerBound] using h

theorem lowerBound_eq_some {m : SortedMap K V} {k : K} {p : K × V} {ps qs : List (K × V)}
    (he : m.entries = ps ++ p :: qs) (hps : ∀ q ∈ ps, q.1 < k) (hp : ¬ p.1 < k) : m.lowerBound k = some p := by
  have hn : ps.find? (fun p => !decide (p.1 < k)) = none := List.find?_eq_none.mpr (by simpa using hps)
  rw [lowerBound, he, List.find?_append, hn, List.find?_cons_of_pos (by simpa using hp)]
  rfl

theorem find_erase (m : SortedMap K V) (k a : K) [Decidable (a = k)] :
    (m.erase k).find a = if a = k then none else m.find a := by
  apply Option.ext
  intro v
  by_cases h : a = k
  · subst h
    rw [find_eq_some, if_pos rfl]
    simp [erase]
  · rw [find_eq_some, if_neg h, find_eq_some]
    simp [erase, h]

theorem entries_insert_of_forall_lt {m : SortedMap K V} {k : K} {v : V} (h : ∀ p ∈ m.entries, p.1 < k) :
    (m.insert k v).entries = m.entries ++ [(k, v)] := by
  have hi := insertEntry_append (v := v) [] h
  rw [List.append_nil] at hi
  exact hi

theorem perm_insert {m : SortedMap K V} {k : K} (v : V) (h : m.find k = none) :
    (m.insert k v).entries.Perm ((k, v) :: m.entries) := by
  obtain ⟨ps, hps⟩ := m
  simp only [insert, find, findEntry, Option.map_eq_none_iff, List.find?_eq_none, decide_eq_true_eq] at h ⊢
  clear hps
  induction ps with
  | nil => exact .refl _
  | cons p ps ih =>
      simp only [insertEntry]
      split
      next => exact .refl _
      next =>
        rw [if_neg (Ne.symm (h p List.mem_cons_self))]
        exact ((ih (fun q hq => h q (List.mem_cons_of_mem _ hq))).cons p).trans (.swap ..)

theorem nodup_keys (m : SortedMap K V) : (m.entries.map Prod.fst).Nodup :=
  (m.ascending.map Prod.fst (S := (· < ·)) (fun _ _ h => h)).imp ne_of_lt

theorem perm_erase {m : SortedMap K V} {k : K} {v : V} {ps : List (K × V)} (h : m.entries.Perm ((k, v) :: ps)) :
    (m.erase k).entries.Perm ps := by
  have hk : k ∉ ps.map Prod.fst := (List.nodup_cons.mp ((h.map Prod.fst).nodup_iff.mp m.nodup_keys)).1
  have hf : ps.filter (fun p => p.1 ≠ k) = ps := by
    apply List.filter_eq_self.mpr
    intro p hp
    simp only [ne_eq, decide_not, Bool.not_eq_eq_eq_not, Bool.not_true, decide_eq_false_iff_not]
    exact fun he => hk (he ▸ List.mem_map_of_mem hp)
  have hp := h.filter (fun p => p.1 ≠ k)
  rw [List.filter_cons_of_neg (by simp), hf] at hp
  exact hp

/-- A map is what it finds. -/
theorem ext_find {m m' : SortedMap K V} (h : ∀ k, m.find k = m'.find k) : m = m' := by
  have hmem : ∀ p, p ∈ m.entries ↔ p ∈ m'.entries := by
    rintro ⟨k, v⟩
    rw [← find_eq_some, ← find_eq_some, h]
  have hnodup (m : SortedMap K V) : m.entries.Nodup :=
    m.ascending.imp (fun hlt he => absurd hlt (by rw [he]; exact lt_irrefl _))
  have hperm := (List.perm_ext_iff_of_nodup (hnodup m) (hnodup m')).mpr hmem
  apply SortedMap.ext
  exact hperm.eq_of_pairwise (fun _ _ _ _ h h' => absurd h' (not_lt_of_gt h)) m.ascending m'.ascending

section Place

variable (m : SortedMap K V) (k : K) [∀ a : K, Decidable (a < k)] [∀ a : K, Decidable (k ≤ a)]

/-- The entries below a key come before the others. -/
theorem filter_append_filter :
    m.entries.filter (fun p => decide (p.1 < k)) ++ m.entries.filter (fun p => decide (k ≤ p.1)) = m.entries := by
  obtain ⟨ps, hps⟩ := m
  dsimp only
  induction ps with
  | nil => rfl
  | cons p ps ih =>
      obtain ⟨hp, hps⟩ := List.pairwise_cons.mp hps
      rcases lt_or_ge p.1 k with hlt | hle
      · rw [List.filter_cons_of_pos (by simpa using hlt), List.filter_cons_of_neg (by simpa using hlt), List.cons_append,
          ih hps]
      · have hbelow : ps.filter (fun q => decide (q.1 < k)) = [] := by
          apply List.filter_eq_nil_iff.mpr
          intro q hq
          simpa using hle.trans (le_of_lt (hp q hq))
        rw [List.filter_cons_of_neg (by simpa using hle), hbelow, List.nil_append]
        apply List.filter_eq_self.mpr
        intro q hq
        rcases List.mem_cons.mp hq with rfl | hq
        · simpa using hle
        · simpa using hle.trans (le_of_lt (hp q hq))

theorem drop_filter :
    m.entries.drop (m.entries.filter (fun p => decide (p.1 < k))).length =
      m.entries.filter (fun p => decide (k ≤ p.1)) := by
  have hdrop : (m.entries.filter (fun p => decide (p.1 < k)) ++ m.entries.filter (fun p => decide (k ≤ p.1))).drop
      (m.entries.filter (fun p => decide (p.1 < k))).length = m.entries.filter (fun p => decide (k ≤ p.1)) :=
    List.drop_left
  rwa [m.filter_append_filter k] at hdrop

/-- The entries below a key are those in front of a place. -/
theorem lt_iff_of_getElem? {i : Nat} {p : K × V} (h : m.entries[i]? = some p) :
    p.1 < k ↔ i < (m.entries.filter (fun p => decide (p.1 < k))).length := by
  rw [← m.filter_append_filter k] at h
  rcases Nat.lt_or_ge i (m.entries.filter (fun p : K × V => decide (p.1 < k))).length with hlt | hle
  · rw [List.getElem?_append_left hlt] at h
    have hmem := List.mem_of_getElem? h
    exact iff_of_true (by simpa using (List.mem_filter.mp hmem).2) hlt
  · rw [List.getElem?_append_right hle] at h
    have hmem := List.mem_of_getElem? h
    have hge : k ≤ p.1 := by simpa using (List.mem_filter.mp hmem).2
    exact iff_of_false (not_lt.mpr hge) (Nat.not_lt.mpr hle)

end Place

/-- The same keys with other values. -/
def mapVal {W : Type*} (m : SortedMap K V) (f : V → W) : SortedMap K W :=
  ⟨m.entries.map (fun p => (p.1, f p.2)), m.ascending.map _ (fun _ _ h => h)⟩

theorem find_mapVal {W : Type*} (m : SortedMap K V) (f : V → W) (k : K) : (m.mapVal f).find k = (m.find k).map f := by
  simp only [find, findEntry, mapVal, List.find?_map, Option.map_map]
  rfl

end SortedMap

end MiniStorage
