import Mathlib.Data.Int.CardIntervalMod

namespace MiniStorage.RoundRobin

variable {α : Type*}

/-- The next `n` places of a cursor that goes round a list. -/
def walk (xs : List α) (start n : Nat) : List α := (List.range n).filterMap fun i => xs[(start + i) % xs.length]?

variable {xs : List α} {start n m : Nat} {x : α}

theorem walk_zero (xs : List α) (start : Nat) : walk xs start 0 = [] := rfl

theorem walk_succ (hne : xs ≠ []) (start n : Nat) :
    walk xs start (n + 1) = walk xs start n ++
      [xs.get ⟨(start + n) % xs.length, Nat.mod_lt _ (List.length_pos_iff.mpr hne)⟩] := by
  have hlt : (start + n) % xs.length < xs.length := Nat.mod_lt _ (List.length_pos_iff.mpr hne)
  rw [walk, List.range_succ, List.filterMap_append]
  simp [walk, hlt]

theorem length_walk (hne : xs ≠ []) (start n : Nat) : (walk xs start n).length = n := by
  induction n with
  | zero => rfl
  | succ n ih => rw [walk_succ hne, List.length_append, ih, List.length_singleton]

theorem mem_of_mem_walk (h : x ∈ walk xs start n) : x ∈ xs := by
  obtain ⟨i, -, hi⟩ := List.mem_filterMap.mp h
  exact List.mem_of_getElem? hi

/-- Only the place of the cursor counts. -/
theorem walk_mod (xs : List α) (start n : Nat) : walk xs (start % xs.length) n = walk xs start n := by
  simp only [walk, Nat.mod_add_mod]

theorem walk_append (xs : List α) (start n m : Nat) :
    walk xs start n ++ walk xs (start + n) m = walk xs start (n + m) := by
  have hshift : ∀ i, start + n + i = start + (n + i) := fun i => Nat.add_assoc start n i
  rw [walk, walk, walk, List.range_add, List.filterMap_append, List.filterMap_map]
  simp only [hshift, Function.comp_def]

variable [BEq α] [LawfulBEq α]

theorem count_walk (hnodup : xs.Nodup) {p : Nat} (hp : p < xs.length) (start n : Nat) :
    (walk xs start n).count xs[p] = Nat.count (fun i => (start + i) % xs.length = p) n := by
  have hne : xs ≠ [] := List.ne_nil_of_length_pos (Nat.zero_lt_of_lt hp)
  induction n with
  | zero => rfl
  | succ n ih =>
      rw [walk_succ hne, List.count_append, ih, Nat.count_succ, List.count_singleton]
      simp only [beq_iff_eq, List.get_eq_getElem, hnodup.getElem_inj_iff]

/-- Places of the cursor at `p`, in steps from the start. -/
theorem mod_eq_iff {l p : Nat} (hp : p < l) (start i : Nat) :
    (start + i) % l = p ↔ i ≡ p + (l - 1) * start [MOD l] := by
  have hround : start + (p + (l - 1) * start) = p + l * start := by
    obtain ⟨k, rfl⟩ : ∃ k, l = k + 1 := ⟨l - 1, by omega⟩
    rw [Nat.add_sub_cancel, Nat.add_mul, Nat.one_mul]
    omega
  calc (start + i) % l = p ↔ start + i ≡ start + (p + (l - 1) * start) [MOD l] := by
        rw [hround, Nat.ModEq, Nat.add_mul_mod_self_left, Nat.mod_eq_of_lt hp]
    _ ↔ i ≡ p + (l - 1) * start [MOD l] := ⟨Nat.ModEq.add_left_cancel' start, Nat.ModEq.add_left start⟩

theorem count_walk_eq (hnodup : xs.Nodup) (hx : x ∈ xs) (start n : Nat) :
    ∃ v < xs.length, (walk xs start n).count x = n / xs.length + if v < n % xs.length then 1 else 0 := by
  obtain ⟨p, hp, rfl⟩ := List.getElem_of_mem hx
  have hpos := Nat.zero_lt_of_lt hp
  refine ⟨(p + (xs.length - 1) * start) % xs.length, Nat.mod_lt _ hpos, ?_⟩
  rw [count_walk hnodup hp]
  simp only [mod_eq_iff hp, Nat.count_modEq_card _ hpos]

/-- After n steps no place was taken more than once oftener than another. -/
theorem count_walk_le (hnodup : xs.Nodup) {y : α} (hx : x ∈ xs) (hy : y ∈ xs) (start n : Nat) :
    (walk xs start n).count x ≤ (walk xs start n).count y + 1 := by
  obtain ⟨v, -, hv⟩ := count_walk_eq hnodup hx start n
  obtain ⟨u, -, hu⟩ := count_walk_eq hnodup hy start n
  rw [hv, hu]
  split <;> split <;> omega

/-- No place comes twice in one round. -/
theorem nodup_walk (hnodup : xs.Nodup) (start : Nat) (hn : n ≤ xs.length) : (walk xs start n).Nodup := by
  rw [List.nodup_iff_count_le_one]
  intro x
  by_cases hx : x ∈ walk xs start n
  · obtain ⟨v, hlt, hv⟩ := count_walk_eq hnodup (mem_of_mem_walk hx) start n
    rw [hv]
    rcases Nat.lt_or_eq_of_le hn with hless | rfl
    · rw [Nat.div_eq_of_lt hless]
      split <;> omega
    · rw [Nat.mod_self, if_neg (Nat.not_lt_zero v), Nat.div_self (Nat.zero_lt_of_lt hlt)]
  · rw [List.count_eq_zero_of_not_mem hx]
    exact Nat.zero_le 1

end MiniStorage.RoundRobin
