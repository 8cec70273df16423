import MiniStorage.Replication.Matching
import Mathlib.Logic.Relation

namespace MiniStorage.Replication

variable {N E : Type*} {τ : E → Nat} {quorum : Finset N → Prop} {a b : State N E}

/-- The term has a leader that was elected without the given log. -/
def State.Lacks (a : State N E) (w : Nat) (L : List E) : Prop :=
  ∃ c, a.lead w = some c ∧ ¬ L <+: a.elog w

/-- Whatever the node acknowledged before term `u`, up to an entry of the term
it was acknowledged in, is in `L`, unless a leader in between lacked it. -/
def Safe (τ : E → Nat) (a : State N E) (v : N) (u : Nat) (L : List E) : Prop :=
  ∀ t k e, t < u → k < a.ack v t → (a.llog t)[k]? = some e → τ e = t →
    (a.llog t).take (k + 1) <+: L ∨ ∃ w, t < w ∧ w < u ∧ a.Lacks w ((a.llog t).take (k + 1))

/-- Acknowledged prefixes stay with a node until a later leader lacks them, the
voters of a leader vouch for its log, and a commit has a quorum behind it. -/
structure Kept (τ : E → Nat) (quorum : Finset N → Prop) (a : State N E) : Prop where
  ack_le : ∀ v t, a.ack v t ≤ (a.llog t).length
  ack_term : ∀ v t, 0 < a.ack v t → t ≤ a.term v
  kept : ∀ v t i, i ≤ a.ack v t → (a.llog t).take i <+: a.log v ∨
    ∃ w, t < w ∧ w ≤ a.term v ∧ a.Lacks w ((a.llog t).take i)
  granted : ∀ v c, a.vote v (a.term c) = some c → a.role c = .candidate →
    a.lead (a.term c) = none → Safe τ a v (a.term c) (a.log c)
  elected : ∀ t c, a.lead t = some c → ∃ S, quorum S ∧ ∀ v ∈ S, a.vote v t = some c ∧ Safe τ a v t (a.elog t)
  decided : ∀ t i, (t, i) ∈ a.commit → ∃ k e, i = k + 1 ∧ (a.llog t)[k]? = some e ∧ τ e = t ∧
    ∃ S, quorum S ∧ ∀ v ∈ S, i ≤ a.ack v t

theorem Kept.initial : Kept τ quorum (State.initial N E) where
  ack_le _ _ := le_rfl
  ack_term _ _ h := by cases h
  kept _ _ _ _ := .inl (by simp [State.initial])
  granted _ _ h := by cases h
  elected _ _ h := by cases h
  decided _ _ h := by cases h

theorem State.Lacks.mono {w : Nat} {L : List E} (h : a.Lacks w L) (hle : a.Le b) : b.Lacks w L := by
  obtain ⟨c, hc, hl⟩ := h
  exact ⟨c, hle.lead w c hc, by rwa [hle.elog w c hc]⟩

theorem Safe.mono {v : N} {u : Nat} {L : List E} (h : Safe τ a v u L) (hle : a.Le b)
    (hlen : ∀ t, a.ack v t ≤ (a.llog t).length) (hack : ∀ t, t < u → b.ack v t = a.ack v t) :
    Safe τ b v u L := by
  intro t k e ht hk he hτ
  rw [hack t ht] at hk
  have hlt := hk.trans_le (hlen t)
  have htake := take_eq_of_isPrefix (hle.llog t) (Nat.succ_le_of_lt hlt)
  have he' : (a.llog t)[k]? = some e := by
    rw [List.getElem?_eq_getElem hlt, ← he]
    exact (getElem?_of_isPrefix (hle.llog t) (List.getElem?_eq_getElem hlt)).symm
  rw [← htake]
  exact (h t k e ht hk he' hτ).imp_right fun ⟨w, hw, hwu, hl⟩ => ⟨w, hw, hwu, hl.mono hle⟩

theorem Kept.safe (hk : Kept τ quorum a) (ha : Matching τ a) {v : N} {u : Nat} {L : List E}
    (hL : Rooted τ a.llog L) (hterm : ∀ e ∈ L, τ e ≤ u) (hnone : a.lead u = none) (hv : a.term v ≤ u)
    (hup : UpToDate τ L (a.log v)) : Safe τ a v u L := by
  have hne {w : Nat} {c : N} (hc : a.lead w = some c) : w ≠ u := by
    rintro rfl; rw [hnone] at hc; cases hc
  intro t k e ht hkt he hτ
  rcases hk.kept v t (k + 1) hkt with hp | ⟨w, htw, hwv, hl⟩
  · refine (hL.upToDate (ha.log v) ha.llog_le hup he hτ hp).imp_right fun ⟨x, hx, htx, hl⟩ => ?_
    obtain ⟨c, hc⟩ := ha.led hL hx
    exact ⟨τ x, htx, lt_of_le_of_ne (hterm x hx) (hne hc), c, hc, fun h => hl (h.trans (ha.elog _))⟩
  · obtain ⟨c, hc, -⟩ := id hl
    exact .inr ⟨w, htw, lt_of_le_of_ne (hwv.trans hv) (hne hc), hl⟩

theorem Kept.decided_mono (hk : Kept τ quorum a) (hle : a.Le b) {t i : Nat} (h : (t, i) ∈ a.commit) :
    ∃ k e, i = k + 1 ∧ (b.llog t)[k]? = some e ∧ τ e = t ∧ ∃ S, quorum S ∧ ∀ v ∈ S, i ≤ b.ack v t := by
  obtain ⟨k, e, rfl, he, hτ, S, hS, hv⟩ := hk.decided t i h
  exact ⟨k, e, rfl, getElem?_of_isPrefix (hle.llog t) he, hτ, S, hS, fun v hvS => (hv v hvS).trans (hle.ack v t)⟩

/-- A step that acknowledges and commits nothing owes three things: where a log
loses an acknowledged prefix, why; for a new vote or a changed candidate, that
the candidate is safe for its voter; for a new leader, its voters. -/
theorem Kept.step (hk : Kept τ quorum a) (hle : a.Le b) (hack : b.ack = a.ack)
    (hcommit : b.commit = a.commit)
    (hlog : ∀ v t i, i ≤ a.ack v t → (a.llog t).take i <+: a.log v →
      (a.llog t).take i <+: b.log v ∨ ∃ w, t < w ∧ w ≤ b.term v ∧ b.Lacks w ((a.llog t).take i))
    (hgranted : ∀ v c, b.vote v (b.term c) = some c → b.role c = .candidate →
      b.lead (b.term c) = none → Safe τ a v (b.term c) (b.log c))
    (helected : ∀ t c, b.lead t = some c → a.lead t = some c ∨
      ∃ S, quorum S ∧ ∀ v ∈ S, b.vote v t = some c ∧ Safe τ a v t (b.elog t)) :
    Kept τ quorum b where
  ack_le v t := by rw [hack]; exact (hk.ack_le v t).trans (hle.llog t).length_le
  ack_term v t h := (hk.ack_term v t (by rwa [hack] at h)).trans (hle.term v)
  kept v t i hi := by
    rw [hack] at hi
    rw [← take_eq_of_isPrefix (hle.llog t) (hi.trans (hk.ack_le v t))]
    rcases hk.kept v t i hi with hp | ⟨w, hw, hwv, hl⟩
    · exact hlog v t i hi hp
    · exact .inr ⟨w, hw, hwv.trans (hle.term v), hl.mono hle⟩
  granted v c hv hr hn := (hgranted v c hv hr hn).mono hle (hk.ack_le v) fun t _ => by rw [hack]
  elected t c h := by
    rcases helected t c h with hc | ⟨S, hS, hv⟩
    · obtain ⟨S, hS, hv⟩ := hk.elected t c hc
      refine ⟨S, hS, fun v hvS => ⟨hle.vote v t c (hv v hvS).1, ?_⟩⟩
      rw [hle.elog t c hc]
      exact (hv v hvS).2.mono hle (hk.ack_le v) fun t _ => by rw [hack]
    · exact ⟨S, hS, fun v hvS => ⟨(hv v hvS).1, (hv v hvS).2.mono hle (hk.ack_le v) fun t _ => by rw [hack]⟩⟩
  decided t i h := hk.decided_mono hle (by rwa [hcommit] at h)

variable [DecidableEq N]

theorem Kept.grant (hk : Kept τ quorum a) (ha : Matching τ a) {v c : N} (hle : a.Le (a.grant v c))
    (hup : a.role c = .candidate → a.term c = a.term v → UpToDate τ (a.log c) (a.log v)) :
    Kept τ quorum (a.grant v c) := by
  refine hk.step hle rfl rfl (fun _ _ _ _ h => .inl h) (fun w d hw hr hn => ?_) (fun _ _ h => .inl h)
  have hr' : a.role d = .candidate := hr
  rw [State.grant, cast_vote] at hw
  split at hw
  · next hwv =>
    obtain ⟨rfl, ht⟩ := hwv
    cases hw
    exact hk.safe ha (ha.log c) (ha.log_le c) hn ht.ge (hup hr' ht)
  · exact hk.granted w d hw hr' hn

theorem Kept.stand (hk : Kept τ quorum a) (ha : Matching τ a) (hv : Votes quorum a) (v : N)
    (hle : a.Le (a.stand v)) : Kept τ quorum (a.stand v) := by
  refine hk.step hle rfl rfl (fun _ _ _ _ h => .inl h) (fun w d hw hr hn => ?_) (fun _ _ h => .inl h)
  by_cases hd : d = v
  · subst d
    have ht : (a.stand v).term v = a.term v + 1 := by simp [State.stand, State.cast]
    rw [ht] at hw hn ⊢
    rw [State.stand, cast_vote] at hw
    split at hw
    · next hwv =>
      obtain ⟨rfl, -⟩ := hwv
      exact hk.safe ha (ha.log w) (fun e he => (ha.log_le w e he).trans (Nat.le_succ _)) hn
        (Nat.le_succ _) .refl
    · have := (hv.voted hw).2
      omega
  · have ht : (a.stand v).term d = a.term d := by simp [State.stand, State.cast, hd]
    rw [ht] at hw hn ⊢
    have hr' : a.role d = .candidate := by simpa [State.stand, State.cast, hd] using hr
    rw [State.stand, cast_vote] at hw
    split at hw
    · next hwv => cases hw; exact absurd rfl hd
    · exact hk.granted w d hw hr' hn

theorem Kept.win (hk : Kept τ quorum a) {c : N} {S : Finset N} (hle : a.Le (a.win c))
    (hrole : a.role c = .candidate) (hS : quorum S) (hv : ∀ v ∈ S, a.vote v (a.term c) = some c)
    (hnone : a.lead (a.term c) = none) : Kept τ quorum (a.win c) := by
  refine hk.step hle rfl rfl (fun _ _ _ _ h => .inl h) (fun w d hw hr hn => ?_) (fun t d h => ?_)
  · have hd : d ≠ c := by rintro rfl; simp [State.win] at hr
    have ht : a.term d ≠ a.term c := by intro ht; simp [State.win, ht] at hn
    exact hk.granted w d hw (by simpa [State.win, hd] using hr) (by simpa [State.win, ht] using hn)
  · by_cases ht : t = a.term c
    · subst t
      obtain rfl : c = d := by simpa [State.win] using h
      refine .inr ⟨S, hS, fun v hvS => ⟨hv v hvS, ?_⟩⟩
      simpa [State.win] using hk.granted v c (hv v hvS) hrole hnone
    · exact .inl (by simpa [State.win, ht] using h)

/-- A follower gives up entries only where its leader has another one, so what
it had acknowledged there the leader was elected without. -/
theorem Kept.truncate (hk : Kept τ quorum a) (ha : Matching τ a) {v : N} {k : Nat}
    (hle : a.Le (a.truncate v k)) (hrole : a.role v = .follower)
    (hwhy : (∀ t, a.ack v t = 0) ∨ a.Conflict v k) : Kept τ quorum (a.truncate v k) := by
  refine hk.step hle rfl rfl (fun w t i hi hp => ?_) (fun w d hw hr hn => ?_) (fun _ _ h => .inl h)
  · by_cases hw : w = v
    · subst w
      rcases Nat.lt_or_ge k i with hki | hik
      · rcases hwhy with hz | ⟨hled, x, y, hx, hy, hxy⟩
        · rw [hz] at hi; omega
        · obtain ⟨c, hc⟩ := Option.ne_none_iff_exists'.mp hled
          have hik' := hi.trans (hk.ack_le v t)
          have hxt : ((a.llog t).take i)[k]? = some x := by
            have hlen : k < ((a.llog t).take i).length := by simp; omega
            rw [List.getElem?_eq_getElem hlen, ← hx]
            exact (getElem?_of_isPrefix hp (List.getElem?_eq_getElem hlen)).symm
          have hne {M : List E} (hM : (a.llog t).take i <+: M) (hMy : M[k]? = some y) : False :=
            hxy (Option.some.inj ((getElem?_of_isPrefix hM hxt).symm.trans hMy))
          have ht := hk.ack_term v t (by omega)
          refine .inr ⟨a.term v, lt_of_le_of_ne ht ?_, le_rfl, c, hc,
            fun h => hne (h.trans (ha.elog _)) hy⟩
          rintro rfl
          exact hne (List.take_prefix _ _) hy
      · left
        simpa [State.truncate] using
          prefix_take hp (i := k) (by simp; omega)
    · exact .inl (by simpa [State.truncate, hw] using hp)
  · have hr' : a.role d = .candidate := hr
    have hd : d ≠ v := by rintro rfl; rw [hrole] at hr'; cases hr'
    simpa [State.truncate, hd] using hk.granted w d hw hr' hn

theorem Kept.grow (hk : Kept τ quorum a) {v : N} {X : List E} (hrole : a.role v ≠ .candidate)
    (hlog : b.log = Function.update a.log v (a.log v ++ X)) (hle : a.Le b) (hack : b.ack = a.ack)
    (hcommit : b.commit = a.commit) (hterm : b.term = a.term) (hrole' : b.role = a.role)
    (hvote : b.vote = a.vote) (hlead : b.lead = a.lead) : Kept τ quorum b := by
  refine hk.step hle hack hcommit (fun w t i hi hp => .inl ?_) (fun w d hw hr hn => ?_)
    (fun t c h => .inl (by rwa [hlead] at h))
  · by_cases hw : w = v
    · subst w; simpa [hlog] using hp.trans (List.prefix_append _ _)
    · simpa [hlog, hw] using hp
  · rw [hterm] at hw hn ⊢
    rw [hrole'] at hr
    have hd : d ≠ v := by rintro rfl; exact hrole hr
    simpa [hlog, hd] using hk.granted w d (by rwa [hvote] at hw) hr (by rwa [hlead] at hn)

theorem Kept.acknowledge (hk : Kept τ quorum a) (hv : Votes quorum a) {v : N} {m : Nat}
    (hle : a.Le (a.acknowledge v m)) (hm : m ≤ (a.llog (a.term v)).length)
    (hp : (a.llog (a.term v)).take m <+: a.log v) : Kept τ quorum (a.acknowledge v m) := by
  have hack {w : N} {t : Nat} (h : w ≠ v ∨ t ≠ a.term v) : (a.acknowledge v m).ack w t = a.ack w t := by
    rcases h with h | h
    · simp [State.acknowledge, h]
    · by_cases hw : w = v
      · subst w; simp [State.acknowledge, h]
      · simp [State.acknowledge, hw]
  have hself : (a.acknowledge v m).ack v (a.term v) = max (a.ack v (a.term v)) m := by
    simp [State.acknowledge]
  -- a vote fixes the acknowledgements its voter has given in earlier terms
  have hsafe {w : N} {t : Nat} {c : N} {L : List E} (hw : a.vote w t = some c) (h : Safe τ a w t L) :
      Safe τ (a.acknowledge v m) w t L := by
    refine h.mono hle (hk.ack_le w) fun u hu => hack ?_
    by_cases hwv : w = v
    · subst w
      have := (hv.voted hw).1
      exact .inr (by omega)
    · exact .inl hwv
  refine ⟨fun w t => ?_, fun w t h => ?_, fun w t i hi => ?_, fun w c hw hr hn => ?_, fun t c h => ?_,
    fun t i h => hk.decided_mono hle h⟩
  · by_cases h : w ≠ v ∨ t ≠ a.term v
    · rw [hack h]; exact hk.ack_le w t
    · obtain ⟨rfl, rfl⟩ : w = v ∧ t = a.term v := by tauto
      rw [hself]
      exact max_le (hk.ack_le _ _) hm
  · by_cases hwt : w ≠ v ∨ t ≠ a.term v
    · exact hk.ack_term w t (by rwa [hack hwt] at h)
    · obtain ⟨rfl, rfl⟩ : w = v ∧ t = a.term v := by tauto
      exact le_rfl
  · by_cases hwt : w ≠ v ∨ t ≠ a.term v
    · exact hk.kept w t i (by rwa [hack hwt] at hi)
    · obtain ⟨rfl, rfl⟩ : w = v ∧ t = a.term v := by tauto
      rw [hself] at hi
      rcases le_max_iff.mp hi with hi | hi
      · exact hk.kept _ _ i hi
      · exact .inl (prefix_of_take hi hp)
  · exact hsafe hw (hk.granted w c hw hr hn)
  · obtain ⟨S, hS, hvS⟩ := hk.elected t c h
    exact ⟨S, hS, fun w hw => ⟨(hvS w hw).1, hsafe (hvS w hw).1 (hvS w hw).2⟩⟩

theorem Step.kept (hq : ∀ S T, quorum S → quorum T → ∃ v, v ∈ S ∧ v ∈ T) (h : Step τ quorum a b)
    (hv : Votes quorum a) (ha : Matching τ a) (hk : Kept τ quorum a) : Kept τ quorum b := by
  have hle := h.le hq hv ha
  cases h with
  | follow v t ht =>
      refine hk.step hle rfl rfl (fun _ _ _ _ h => .inl h) (fun w d hw hr hn => ?_) (fun _ _ h => .inl h)
      have hd : d ≠ v := by rintro rfl; simp [State.follow] at hr
      simp only [State.follow, Function.update_of_ne hd] at hw hr hn ⊢
      exact hk.granted w d hw hr hn
  | stand v => exact hk.stand ha hv v hle
  | grant v c hfree hterm hup => exact hk.grant ha hle hup
  | win c hrole S hS hc => exact hk.win hle hrole hS hc (hv.lead_none hq hrole hS hc)
  | propose v e hrole he => exact hk.grow (by rw [hrole]; simp) rfl hle rfl rfl rfl rfl rfl rfl
  | truncate v k hrole hwhy => exact hk.truncate ha hle hrole hwhy
  | extend v X hrole hroot hterm => exact hk.grow (by rw [hrole]; simp) rfl hle rfl rfl rfl rfl rfl rfl
  | acknowledge v m hlead hm hp => exact hk.acknowledge hv hle hm hp
  | decide t k e he ht S hS hack =>
      refine ⟨hk.ack_le, hk.ack_term, hk.kept, hk.granted, hk.elected, fun u i h => ?_⟩
      rcases Set.mem_insert_iff.mp h with h | h
      · cases h; exact ⟨k, e, rfl, he, ht, S, hS, hack⟩
      · exact hk.decided u i h

/-- The invariant of the protocol. -/
structure Inv (τ : E → Nat) (quorum : Finset N → Prop) (a : State N E) : Prop where
  votes : Votes quorum a
  matching : Matching τ a
  kept : Kept τ quorum a

omit [DecidableEq N] in
theorem Inv.initial : Inv τ quorum (State.initial N E) := ⟨.initial, .initial, .initial⟩

theorem Step.inv (hq : ∀ S T, quorum S → quorum T → ∃ v, v ∈ S ∧ v ∈ T) (h : Step τ quorum a b)
    (ha : Inv τ quorum a) : Inv τ quorum b :=
  ⟨h.votes hq ha.votes, h.matching hq ha.votes ha.matching, h.kept hq ha.votes ha.matching ha.kept⟩

theorem Inv.steps (hq : ∀ S T, quorum S → quorum T → ∃ v, v ∈ S ∧ v ∈ T)
    (h : Relation.ReflTransGen (Step τ quorum) a b) (ha : Inv τ quorum a) : a.Le b ∧ Inv τ quorum b := by
  induction h with
  | refl => exact ⟨.refl a, ha⟩
  | tail _ hs ih =>
      obtain ⟨hle, hb⟩ := ih
      exact ⟨hle.trans (hs.le hq hb.votes hb.matching), hs.inv hq hb⟩

omit [DecidableEq N] in
/-- Leader completeness: a committed prefix is in the log every later leader is
elected on. The quorum that acknowledged it and the quorum that voted share a
node, and no leader in between lacks it. -/
theorem Inv.leader_complete (hq : ∀ S T, quorum S → quorum T → ∃ v, v ∈ S ∧ v ∈ T)
    (ha : Inv τ quorum a) {t i : Nat} (h : (t, i) ∈ a.commit) {u : Nat} {c : N} (htu : t < u)
    (hc : a.lead u = some c) : (a.llog t).take i <+: a.elog u := by
  obtain ⟨k, e, rfl, he, hτ, S, hS, hack⟩ := ha.kept.decided t i h
  induction u using Nat.strong_induction_on generalizing c with
  | _ u ih =>
      obtain ⟨T, hT, hvote⟩ := ha.kept.elected u c hc
      obtain ⟨v, hvS, hvT⟩ := hq S T hS hT
      rcases (hvote v hvT).2 t k e htu (hack v hvS) he hτ with hp | ⟨w, htw, hwu, d, hd, hl⟩
      · exact hp
      · exact absurd (ih w hwu htw hd) hl

omit [DecidableEq N] in
theorem Inv.committed_isPrefix (hq : ∀ S T, quorum S → quorum T → ∃ v, v ∈ S ∧ v ∈ T)
    (ha : Inv τ quorum a) {t i : Nat} (h : (t, i) ∈ a.commit) {u : Nat} {c : N} (htu : t ≤ u)
    (hc : a.lead u = some c) : (a.llog t).take i <+: a.llog u := by
  rcases htu.eq_or_lt with rfl | htu
  · exact List.take_prefix _ _
  · exact (ha.leader_complete hq h htu hc).trans (ha.matching.elog u)

omit [DecidableEq N] in
theorem Inv.committed_led (ha : Inv τ quorum a) {t i : Nat} (h : (t, i) ∈ a.commit) :
    i ≤ (a.llog t).length ∧ ∃ c, a.lead t = some c := by
  obtain ⟨k, e, rfl, he, rfl, -⟩ := ha.kept.decided t i h
  exact ⟨(List.getElem?_eq_some_iff.mp he).1,
    ha.matching.led (ha.matching.llog _) (List.mem_of_getElem? he)⟩

omit [DecidableEq N] in
theorem Inv.committed_agree (hq : ∀ S T, quorum S → quorum T → ∃ v, v ∈ S ∧ v ∈ T)
    (ha : Inv τ quorum a) {t i u j : Nat} (h : (t, i) ∈ a.commit) (k : (u, j) ∈ a.commit) {m : Nat}
    (hi : m < i) (hj : m < j) : (a.llog t)[m]? = (a.llog u)[m]? := by
  wlog htu : t ≤ u generalizing t i u j
  · exact (this k h hj hi (by omega)).symm
  · obtain ⟨hlen, -⟩ := ha.committed_led h
    obtain ⟨-, c, hc⟩ := ha.committed_led k
    have hp := ha.committed_isPrefix hq h htu hc
    have hm : m < ((a.llog t).take i).length := by simp; omega
    rw [getElem?_of_isPrefix (List.take_prefix i _) (List.getElem?_eq_getElem hm),
      getElem?_of_isPrefix hp (List.getElem?_eq_getElem hm)]

end MiniStorage.Replication
