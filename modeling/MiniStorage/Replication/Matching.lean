import MiniStorage.Replication.Election

namespace MiniStorage.Replication

variable {N E : Type*} {τ : E → Nat} {quorum : Finset N → Prop} {a b : State N E}

/-- All logs are rooted in the logs of the leaders of their entries' terms, and
a leader holds the log of its term. -/
structure Matching (τ : E → Nat) (a : State N E) : Prop where
  log : ∀ v, Rooted τ a.llog (a.log v)
  llog : ∀ t, Rooted τ a.llog (a.llog t)
  unled : ∀ {t}, a.lead t = none → a.llog t = []
  elog : ∀ t, a.elog t <+: a.llog t
  llog_le : ∀ t, ∀ e ∈ a.llog t, τ e ≤ t
  log_le : ∀ v, ∀ e ∈ a.log v, τ e ≤ a.term v
  leader : ∀ {c}, a.role c = .leader → a.log c = a.llog (a.term c)

theorem Matching.initial : Matching τ (State.initial N E) where
  log _ := .nil
  llog _ := .nil
  unled _ := rfl
  elog _ := List.prefix_refl _
  llog_le _ _ h := by cases h
  log_le _ _ h := by cases h
  leader h := by cases h

/-- The term of an entry in a rooted log has had a leader. -/
theorem Matching.led (ha : Matching τ a) {L : List E} (hL : Rooted τ a.llog L) {e : E} (he : e ∈ L) :
    ∃ c, a.lead (τ e) = some c := by
  obtain ⟨k, hk⟩ := List.mem_iff_getElem?.mp he
  cases h : a.lead (τ e) with
  | some c => exact ⟨c, rfl⟩
  | none =>
      have hp := hL k e hk
      have hlt := (List.getElem?_eq_some_iff.mp hk).1
      rw [ha.unled h, List.prefix_nil, List.take_eq_nil_iff] at hp
      rcases hp with hp | hp
      · omega
      · simp [hp] at hlt

variable [DecidableEq N]

omit [DecidableEq N] in
theorem prefix_update_llog {l : Nat → List E} {t : Nat} {L : List E} (h : l t <+: L) (u : Nat) :
    l u <+: Function.update l t L u := by
  by_cases hu : u = t
  · subst u; simpa
  · simp [hu]

/-- A step only adds to what the state records of the past. -/
theorem Step.le (hq : ∀ S T, quorum S → quorum T → ∃ v, v ∈ S ∧ v ∈ T) (h : Step τ quorum a b)
    (hv : Votes quorum a) (ha : Matching τ a) : a.Le b := by
  have hr := State.Le.refl a
  cases h with
  | follow v t ht => exact { hr with term := update_term_le ht }
  | stand v =>
      exact { hr with
        term := update_term_le (Nat.le_succ _)
        vote := fun w t c hw => stand_vote_mono hv v hw }
  | grant v c hfree hterm hup => exact { hr with vote := fun w t d hw => cast_vote_mono hfree hw }
  | win c hrole S hS hc =>
      have hnone := hv.lead_none hq hrole hS hc
      have hne {t d} (h : a.lead t = some d) : t ≠ a.term c := by
        rintro rfl; rw [hnone] at h; cases h
      exact { hr with
        lead := fun t d h => by simpa [State.win, hne h] using h
        elog := fun t d h => by simp [State.win, hne h]
        llog := prefix_update_llog (by rw [ha.unled hnone]; exact List.nil_prefix) }
  | propose v e hrole he => exact { hr with llog := prefix_update_llog (List.prefix_append _ _) }
  | truncate | extend => exact { hr with }
  | acknowledge v m hlead hm hp =>
      refine { hr with ack := fun w t => ?_ }
      by_cases hw : w = v
      · subst w
        by_cases ht : t = a.term v
        · subst t; simp [State.acknowledge]
        · simp [State.acknowledge, ht]
      · simp [State.acknowledge, hw]
  | decide t k e he ht S hS hack => exact { hr with commit := Set.subset_insert _ _ }

theorem Matching.win (ha : Matching τ a) (hv : Votes quorum a) {c : N}
    (hnone : a.lead (a.term c) = none) : Matching τ (a.win c) := by
  have hl : ∀ t, a.llog t <+: (a.win c).llog t :=
    prefix_update_llog (by rw [ha.unled hnone]; exact List.nil_prefix)
  refine ⟨fun v => (ha.log v).mono hl, fun t => ?_, fun {t} h => ?_, fun t => ?_, fun t e he => ?_,
    ha.log_le, fun {d} h => ?_⟩
  · by_cases ht : t = a.term c
    · subst t; simpa [State.win] using (ha.log c).mono hl
    · simpa [State.win, ht] using (ha.llog t).mono hl
  · have ht : t ≠ a.term c := by rintro rfl; simp [State.win] at h
    simp only [State.win, Function.update_of_ne ht] at h ⊢
    exact ha.unled h
  · by_cases ht : t = a.term c
    · subst t; simp [State.win]
    · simpa [State.win, ht] using ha.elog t
  · by_cases ht : t = a.term c
    · subst t; exact ha.log_le c e (by simpa [State.win] using he)
    · exact ha.llog_le t e (by simpa [State.win, ht] using he)
  · by_cases hd : d = c
    · subst d; simp [State.win]
    · have h' := ha.leader (c := d) (by simpa [State.win, hd] using h)
      have ht : a.term d ≠ a.term c := by
        intro ht
        have hd' := hv.leader (c := d) (by simpa [State.win, hd] using h)
        rw [ht, hnone] at hd'
        cases hd'
      simpa [State.win, ht] using h'

theorem Matching.propose (ha : Matching τ a) (hv : Votes quorum a) {v : N} {e : E}
    (hrole : a.role v = .leader) (he : τ e = a.term v) : Matching τ (a.propose v e) := by
  have hl : ∀ t, a.llog t <+: (a.propose v e).llog t := prefix_update_llog (List.prefix_append _ _)
  have hnew : Rooted τ (a.propose v e).llog (a.log v ++ [e]) :=
    ((ha.log v).mono hl).append_one (by simp [State.propose, he, ha.leader hrole])
  refine ⟨fun w => ?_, fun t => ?_, fun {t} h => ?_, fun t => (ha.elog t).trans (hl t),
    fun t x hx => ?_, fun w x hx => ?_, fun {d} h => ?_⟩
  · by_cases hw : w = v
    · subst w; simpa [State.propose] using hnew
    · simpa [State.propose, hw] using (ha.log w).mono hl
  · by_cases ht : t = a.term v
    · subst t; simpa [State.propose, ha.leader hrole] using hnew
    · simpa [State.propose, ht] using (ha.llog t).mono hl
  · have h' : a.lead t = none := h
    have ht : t ≠ a.term v := by rintro rfl; rw [hv.leader hrole] at h'; cases h'
    simpa [State.propose, ht] using ha.unled h'
  · by_cases ht : t = a.term v
    · subst t
      have hx' : x ∈ a.llog (a.term v) ∨ x = e := by simpa [State.propose] using hx
      rcases hx' with hx' | rfl
      · exact ha.llog_le _ x hx'
      · exact he.le
    · exact ha.llog_le t x (by simpa [State.propose, ht] using hx)
  · by_cases hw : w = v
    · subst w
      have hx' : x ∈ a.log v ∨ x = e := by simpa [State.propose] using hx
      rcases hx' with hx' | rfl
      · exact ha.log_le v x hx'
      · exact he.le
    · exact ha.log_le w x (by simpa [State.propose, hw] using hx)
  · have h' : a.role d = .leader := h
    by_cases hd : d = v
    · subst d; simp [State.propose, ha.leader hrole]
    · have ht : a.term d ≠ a.term v := by
        intro ht
        have hd' := hv.leader h'
        rw [ht, hv.leader hrole] at hd'
        exact hd (Option.some.inj hd').symm
      simpa [State.propose, hd, ht] using ha.leader h'

theorem Matching.setLog (ha : Matching τ a) {v : N} {L : List E} (hrole : a.role v = .follower)
    (hL : Rooted τ a.llog L) (hterm : ∀ e ∈ L, τ e ≤ a.term v) :
    Matching τ { a with log := Function.update a.log v L } := by
  refine ⟨fun w => ?_, ha.llog, ha.unled, ha.elog, ha.llog_le, fun w e he => ?_, fun {d} h => ?_⟩
  · by_cases hw : w = v
    · subst w; simpa using hL
    · simpa [hw] using ha.log w
  · by_cases hw : w = v
    · subst w; exact hterm e (by simpa using he)
    · exact ha.log_le w e (by simpa [hw] using he)
  · have h' : a.role d = .leader := h
    have hd : d ≠ v := by rintro rfl; rw [hrole] at h'; cases h'
    simpa [hd] using ha.leader h'

theorem Step.matching (hq : ∀ S T, quorum S → quorum T → ∃ v, v ∈ S ∧ v ∈ T)
    (h : Step τ quorum a b) (hv : Votes quorum a) (ha : Matching τ a) : Matching τ b := by
  cases h with
  | follow v t ht =>
      refine { ha with
        log_le := fun w e he => (ha.log_le w e he).trans (update_term_le ht w), leader := fun {d} h => ?_ }
      have hd : d ≠ v := by rintro rfl; simp [State.follow] at h
      simp only [State.follow, Function.update_of_ne hd] at h ⊢
      exact ha.leader h
  | stand v =>
      refine { ha with
        log_le := fun w e he => (ha.log_le w e he).trans (update_term_le (Nat.le_succ _) w)
        leader := fun {d} h => ?_ }
      have hd : d ≠ v := by rintro rfl; simp [State.stand, State.cast] at h
      simp only [State.stand, State.cast, Function.update_of_ne hd] at h ⊢
      exact ha.leader h
  | win c hrole S hS hc => exact ha.win hv (hv.lead_none hq hrole hS hc)
  | propose v e hrole he => exact ha.propose hv hrole he
  | truncate v k hrole hwhy =>
      exact ha.setLog hrole ((ha.log v).of_isPrefix (List.take_prefix _ _))
        fun e he => ha.log_le v e (List.mem_of_mem_take he)
  | extend v X hrole hroot hterm =>
      refine ha.setLog hrole hroot fun e he => ?_
      rcases List.mem_append.mp he with he | he
      · exact ha.log_le v e he
      · exact hterm e he
  | grant | acknowledge | decide => exact { ha with }

end MiniStorage.Replication
