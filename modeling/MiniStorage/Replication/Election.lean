import MiniStorage.Replication.Protocol

namespace MiniStorage.Replication

variable {N E : Type*} {quorum : Finset N → Prop} {a b : State N E}

/-- Votes go with terms, a leader has had the votes of a quorum, and a
candidate votes for itself and has not led its term. -/
structure Votes (quorum : Finset N → Prop) (a : State N E) : Prop where
  voted : ∀ {v t c}, a.vote v t = some c → t ≤ a.term v ∧ t ≤ a.term c
  elected : ∀ {t c}, a.lead t = some c →
    t ≤ a.term c ∧ ∃ S, quorum S ∧ ∀ v ∈ S, a.vote v t = some c
  leader : ∀ {c}, a.role c = .leader → a.lead (a.term c) = some c
  candidate : ∀ {c}, a.role c = .candidate →
    a.lead (a.term c) ≠ some c ∧ a.vote c (a.term c) = some c

theorem Votes.initial : Votes quorum (State.initial N E) :=
  ⟨nofun, nofun, nofun, nofun⟩

/-- Two quorums of votes in one term are for the same candidate. -/
theorem winner_unique (hq : ∀ S T, quorum S → quorum T → ∃ v, v ∈ S ∧ v ∈ T) {S T : Finset N} {t : Nat}
    {c d : N} (hS : quorum S) (hT : quorum T) (hc : ∀ v ∈ S, a.vote v t = some c)
    (hd : ∀ v ∈ T, a.vote v t = some d) : c = d := by
  obtain ⟨v, hv, hw⟩ := hq S T hS hT
  exact Option.some.inj ((hc v hv).symm.trans (hd v hw))

theorem Votes.lead_none (ha : Votes quorum a)
    (hq : ∀ S T, quorum S → quorum T → ∃ v, v ∈ S ∧ v ∈ T) {c : N} (hrole : a.role c = .candidate)
    {S : Finset N} (hS : quorum S) (hv : ∀ v ∈ S, a.vote v (a.term c) = some c) :
    a.lead (a.term c) = none := by
  by_contra hne
  obtain ⟨d, hd⟩ := Option.ne_none_iff_exists'.mp hne
  obtain ⟨-, T, hT, hw⟩ := ha.elected hd
  obtain rfl := winner_unique hq hS hT hv hw
  exact (ha.candidate hrole).1 hd

theorem Votes.fresh (ha : Votes quorum a) (v : N) :
    a.vote v (a.term v + 1) = none ∧ a.lead (a.term v + 1) ≠ some v := by
  constructor
  · cases h : a.vote v (a.term v + 1) with
    | none => rfl
    | some c => have := (ha.voted h).1; omega
  · intro h
    have := (ha.elected h).1
    omega

variable [DecidableEq N]

theorem cast_vote (v w : N) (t u : Nat) (c : N) :
    (a.cast v t c).vote w u = if w = v ∧ u = t then some c else a.vote w u := by
  by_cases hw : w = v
  · subst w
    by_cases hu : u = t <;> simp [State.cast, hu]
  · simp [State.cast, hw]

theorem cast_vote_mono {v c : N} {t : Nat} (h : a.vote v t = none ∨ a.vote v t = some c) {w d : N}
    {u : Nat} (hw : a.vote w u = some d) : (a.cast v t c).vote w u = some d := by
  rw [cast_vote]
  split
  · next hc =>
    obtain ⟨rfl, rfl⟩ := hc
    rcases h with h | h
    · rw [h] at hw; cases hw
    · rw [← hw, h]
  · exact hw

theorem update_term_le {f : N → Nat} {v : N} {t : Nat} (ht : f v ≤ t) (w : N) :
    f w ≤ Function.update f v t w := by
  by_cases h : w = v
  · subst w; simpa
  · simp [h]

theorem Votes.follow (ha : Votes quorum a) {v : N} {t : Nat} (ht : a.term v ≤ t) :
    Votes quorum (a.follow v t) where
  voted h := ⟨(ha.voted h).1.trans (update_term_le ht _), (ha.voted h).2.trans (update_term_le ht _)⟩
  elected h := ⟨(ha.elected h).1.trans (update_term_le ht _), (ha.elected h).2⟩
  leader {c} h := by
    have hc : c ≠ v := by rintro rfl; simp [State.follow] at h
    simp only [State.follow, Function.update_of_ne hc] at h ⊢
    exact ha.leader h
  candidate {c} h := by
    have hc : c ≠ v := by rintro rfl; simp [State.follow] at h
    simp only [State.follow, Function.update_of_ne hc] at h ⊢
    exact ha.candidate h

theorem stand_vote_mono (ha : Votes quorum a) (v : N) {w d : N} {u : Nat} (hw : a.vote w u = some d) :
    (a.stand v).vote w u = some d :=
  cast_vote_mono (.inl (ha.fresh v).1) hw

theorem Votes.stand (ha : Votes quorum a) (v : N) : Votes quorum (a.stand v) where
  voted {w t c} h := by
    have hle := update_term_le (f := a.term) (v := v) (Nat.le_succ _)
    rw [State.stand, cast_vote] at h
    split at h
    · next hc => obtain ⟨rfl, rfl⟩ := hc; cases h; simp [State.stand, State.cast]
    · exact ⟨(ha.voted h).1.trans (hle _), (ha.voted h).2.trans (hle _)⟩
  elected {t c} h := by
    obtain ⟨hle, S, hS, hv⟩ := ha.elected h
    exact ⟨hle.trans (update_term_le (Nat.le_succ _) _), S, hS,
      fun w hw => stand_vote_mono ha v (hv w hw)⟩
  leader {c} h := by
    have hc : c ≠ v := by rintro rfl; simp [State.stand, State.cast] at h
    simp only [State.stand, State.cast, Function.update_of_ne hc] at h ⊢
    exact ha.leader h
  candidate {c} h := by
    by_cases hc : c = v
    · subst c
      exact ⟨by simpa [State.stand, State.cast] using (ha.fresh v).2,
        by simp [State.stand, State.cast]⟩
    · have h' : a.role c = .candidate := by simpa [State.stand, State.cast, hc] using h
      refine ⟨?_, ?_⟩
      · simpa [State.stand, State.cast, hc] using (ha.candidate h').1
      · have := stand_vote_mono ha v (ha.candidate h').2
        simpa [State.stand, State.cast, hc] using this

theorem Votes.grant (ha : Votes quorum a) {v c : N}
    (hfree : a.vote v (a.term v) = none ∨ a.vote v (a.term v) = some c) (hterm : a.term v ≤ a.term c) :
    Votes quorum (a.grant v c) where
  voted {w t d} h := by
    rw [State.grant, cast_vote] at h
    split at h
    · next hw => obtain ⟨rfl, rfl⟩ := hw; cases h; exact ⟨le_rfl, hterm⟩
    · exact ha.voted h
  elected h :=
    ⟨(ha.elected h).1, (ha.elected h).2.imp fun _ hS => ⟨hS.1, fun w hw => cast_vote_mono hfree (hS.2 w hw)⟩⟩
  leader h := ha.leader h
  candidate h := ⟨(ha.candidate h).1, cast_vote_mono hfree (ha.candidate h).2⟩

theorem Votes.win (ha : Votes quorum a) {c : N} {S : Finset N} (hrole : a.role c = .candidate)
    (hS : quorum S) (hv : ∀ v ∈ S, a.vote v (a.term c) = some c) (hnone : a.lead (a.term c) = none) :
    Votes quorum (a.win c) where
  voted h := ha.voted h
  elected {t d} h := by
    by_cases ht : t = a.term c
    · subst t
      obtain rfl : c = d := by simpa [State.win] using h
      exact ⟨le_rfl, S, hS, hv⟩
    · exact ha.elected (by simpa [State.win, ht] using h)
  leader {d} h := by
    by_cases hd : d = c
    · subst d; simp [State.win]
    · have h' := ha.leader (c := d) (by simpa [State.win, hd] using h)
      have ht : a.term d ≠ a.term c := by intro he; rw [he, hnone] at h'; cases h'
      simpa [State.win, ht] using h'
  candidate {d} h := by
    have hd : d ≠ c := by rintro rfl; simp [State.win] at h
    have h' := ha.candidate (c := d) (by simpa [State.win, hd] using h)
    refine ⟨?_, h'.2⟩
    by_cases ht : a.term d = a.term c
    · simpa [State.win, ht] using Ne.symm hd
    · simpa [State.win, ht] using h'.1

variable {τ : E → Nat}

theorem Step.votes (hq : ∀ S T, quorum S → quorum T → ∃ v, v ∈ S ∧ v ∈ T)
    (h : Step τ quorum a b) (ha : Votes quorum a) : Votes quorum b := by
  cases h with
  | follow v t ht => exact ha.follow ht
  | stand v => exact ha.stand v
  | grant v c hfree hterm hup => exact ha.grant hfree hterm
  | win c hrole S hS hv => exact ha.win hrole hS hv (ha.lead_none hq hrole hS hv)
  | propose | truncate | extend | acknowledge | decide =>
      exact ⟨ha.voted, ha.elected, ha.leader, ha.candidate⟩

end MiniStorage.Replication
