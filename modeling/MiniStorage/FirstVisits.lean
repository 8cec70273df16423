import Mathlib.Data.List.Basic

namespace MiniStorage.FirstVisits

variable {α σ : Type*} [DecidableEq α]

/-- One turn of a loop that passes over what it has visited before. -/
def visit (body : σ → α → σ) (acc : List α × σ) (x : α) : List α × σ :=
  if x ∈ acc.1 then acc else (x :: acc.1, body acc.2 x)

/-- What is not visited yet, in the order in which it comes up first. -/
def fresh : List α → List α → List α
  | _, [] => []
  | visited, x :: xs => if x ∈ visited then fresh visited xs else x :: fresh (x :: visited) xs

theorem foldl_visit (body : σ → α → σ) (visited xs : List α) (s : σ) :
    (xs.foldl (visit body) (visited, s)).2 = (fresh visited xs).foldl body s := by
  induction xs generalizing visited s with
  | nil => rfl
  | cons x xs ih =>
      rw [List.foldl_cons, visit, fresh]
      by_cases hx : x ∈ visited
      · rw [if_pos hx, if_pos hx, ih]
      · rw [if_neg hx, if_neg hx, ih, List.foldl_cons]

theorem mem_fresh {visited xs : List α} {x : α} : x ∈ fresh visited xs ↔ x ∈ xs ∧ x ∉ visited := by
  induction xs generalizing visited with
  | nil => simp [fresh]
  | cons y xs ih =>
      rw [fresh]
      by_cases hy : y ∈ visited
      · rw [if_pos hy, ih]
        constructor
        · exact fun h => ⟨List.mem_cons_of_mem y h.1, h.2⟩
        · rintro ⟨hx, hnot⟩
          exact ⟨(List.mem_cons.mp hx).resolve_left fun he => hnot (he ▸ hy), hnot⟩
      · rw [if_neg hy, List.mem_cons, List.mem_cons, ih, List.mem_cons, not_or]
        constructor
        · rintro (rfl | ⟨hx, -, hnot⟩)
          · exact ⟨.inl rfl, hy⟩
          · exact ⟨.inr hx, hnot⟩
        · rintro ⟨hx, hnot⟩
          by_cases he : x = y
          · exact .inl he
          · exact .inr ⟨hx.resolve_left he, he, hnot⟩

theorem nodup_fresh (visited xs : List α) : (fresh visited xs).Nodup := by
  induction xs generalizing visited with
  | nil => exact .nil
  | cons x xs ih =>
      rw [fresh]
      split
      · exact ih visited
      · exact List.nodup_cons.mpr ⟨fun hx => (mem_fresh.mp hx).2 List.mem_cons_self, ih _⟩

end MiniStorage.FirstVisits
