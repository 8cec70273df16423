import MiniStorage.Replication.Completeness

namespace MiniStorage.Replication

variable {N E : Type*} {τ : E → Nat} {quorum : Finset N → Prop} {a b : State N E} {L M : List E} {t u k : Nat}

/-- The first entries of a log, up to a number, are committed, by a leader of a term at most `t`. -/
def State.Settled (a : State N E) (L : List E) (t k : Nat) : Prop :=
  k = 0 ∨ ∃ u i, (u, i) ∈ a.commit ∧ u ≤ t ∧ k ≤ i ∧ (a.llog u).take k <+: L

theorem State.Settled.zero : a.Settled L t 0 := .inl rfl

theorem State.Settled.of_commit {i : Nat} (h : (t, i) ∈ a.commit) : a.Settled (a.llog t) t i :=
  .inr ⟨t, i, h, le_rfl, le_rfl, List.take_prefix _ _⟩

theorem State.Settled.length_le (h : a.Settled L t k) (ha : Inv τ quorum a) : k ≤ L.length := by
  rcases h with rfl | ⟨u, i, hc, -, hk, hp⟩
  · exact Nat.zero_le _
  · have := (ha.committed_led hc).1
    have := hp.length_le
    rw [List.length_take] at this
    omega

theorem State.Settled.mono (h : a.Settled L t k) (ha : Inv τ quorum a) (hle : a.Le b) (ht : t ≤ u) :
    b.Settled L u k := by
  rcases h with rfl | ⟨w, i, hc, hw, hk, hp⟩
  · exact .zero
  · refine .inr ⟨w, i, hle.commit hc, hw.trans ht, hk, ?_⟩
    rw [← take_eq_of_isPrefix (hle.llog w) (hk.trans (ha.committed_led hc).1)]
    exact hp

theorem State.Settled.of_isPrefix (h : a.Settled L t k) (hp : L <+: M) : a.Settled M t k :=
  h.imp_right fun ⟨w, i, hc, hw, hk, hl⟩ => ⟨w, i, hc, hw, hk, hl.trans hp⟩

theorem State.Settled.shorter (h : a.Settled L t k) {j : Nat} (hj : j ≤ k) : a.Settled L t j := by
  rcases h with rfl | ⟨w, i, hc, hw, hk, hp⟩
  · exact .inl (Nat.le_zero.mp hj)
  · exact .inr ⟨w, i, hc, hw, hj.trans hk, prefix_of_take hj hp⟩

theorem State.Settled.to_isPrefix (h : a.Settled M t k) (hp : L <+: M) (hk : k ≤ L.length) : a.Settled L t k := by
  refine h.imp_right fun ⟨w, i, hc, hw, hki, hl⟩ => ⟨w, i, hc, hw, hki, ?_⟩
  exact List.prefix_of_prefix_length_le hl hp (by rw [List.length_take]; omega)

theorem State.Settled.led (h : a.Settled L t k) (hq : ∀ S T, quorum S → quorum T → ∃ v, v ∈ S ∧ v ∈ T)
    (ha : Inv τ quorum a) {c : N} (hc : a.lead u = some c) (ht : t ≤ u) : L.take k <+: a.llog u := by
  rcases h with rfl | ⟨w, i, hw, hwt, hk, hp⟩
  · exact List.nil_prefix
  · have hlen := (ha.committed_led hw).1
    have heq : L.take k = (a.llog w).take k :=
      (eq_of_prefix_of_length hp (List.take_prefix k L) (by
        have := hp.length_le
        rw [List.length_take] at this ⊢
        rw [List.length_take]
        omega)).symm
    rw [heq]
    exact prefix_of_take hk (ha.committed_isPrefix hq hw (hwt.trans ht) hc)

theorem State.Settled.agree (h : a.Settled L t k) (hq : ∀ S T, quorum S → quorum T → ∃ v, v ∈ S ∧ v ∈ T)
    (ha : Inv τ quorum a) {j m : Nat} (h' : a.Settled M u j) (hk : m < k) (hj : m < j) : L[m]? = M[m]? := by
  rcases h with rfl | ⟨v, i, hc, -, hki, hp⟩
  · exact absurd hk (Nat.not_lt_zero m)
  rcases h' with rfl | ⟨w, l, hc', -, hjl, hp'⟩
  · exact absurd hj (Nat.not_lt_zero m)
  have hget {w i k : Nat} {L : List E} (hc : (w, i) ∈ a.commit) (hki : k ≤ i) (hk : m < k)
      (hp : (a.llog w).take k <+: L) : L[m]? = (a.llog w)[m]? := by
    have hlen := (ha.committed_led hc).1
    have hm : m < ((a.llog w).take k).length := by rw [List.length_take]; omega
    rw [getElem?_of_isPrefix hp (List.getElem?_eq_getElem hm),
      getElem?_of_isPrefix (List.take_prefix _ _) (List.getElem?_eq_getElem hm)]
  rw [hget hc hki hk hp, hget hc' hjl hj hp', ha.committed_agree hq hc hc' (hk.trans_le hki) (hj.trans_le hjl)]

end MiniStorage.Replication
