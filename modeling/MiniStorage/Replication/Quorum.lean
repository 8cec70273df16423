import Mathlib.Data.Finset.Card

namespace MiniStorage.Replication

variable {N : Type*} [DecidableEq N]

/-- The members of a majority. -/
def Majority (members : List N) (S : Finset N) : Prop :=
  S ⊆ members.toFinset ∧ members.length / 2 + 1 ≤ S.card

theorem Majority.inter {members : List N} {S T : Finset N} (hS : Majority members S)
    (hT : Majority members T) : ∃ v, v ∈ S ∧ v ∈ T := by
  by_contra h
  have hdisj : Disjoint S T := Finset.disjoint_left.mpr fun v hv hw => h ⟨v, hv, hw⟩
  have hle := Finset.card_le_card (Finset.union_subset hS.1 hT.1)
  rw [Finset.card_union_of_disjoint hdisj] at hle
  have hlen := members.toFinset_card_le
  have := hS.2
  have := hT.2
  omega

end MiniStorage.Replication
