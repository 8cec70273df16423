import MiniStorage.Raft.Sound
import MiniStorage.Raft.Terms

namespace MiniStorage.Raft

open RaftNode

variable {peers : List Bytes} {cfg : RaftConfig} {peer : Bytes} {l f f' : RaftNode} {req : AppendEntriesRequest}
  {log A G : List LogEntry} {e : LogEntry} {i k m p s : Nat}

/-- A leader's request to one peer, the peer's answer, and what the leader makes of it. -/
def repairRound (cfg : RaftConfig) (peer : Bytes) (l f : RaftNode) : Option (RaftNode × RaftNode) :=
  (f.handleAppendEntries cfg.nodeId (l.heartbeatRequest cfg peer)).map fun f =>
    (l.handleAppendEntriesResponse cfg peer f.aeResp, f)

/-- Rounds up to the first success, but no more than a number, and the follower after them. -/
def repair (cfg : RaftConfig) (peer : Bytes) : Nat → RaftNode → RaftNode → Option RaftNode
  | 0, _, _ => none
  | k + 1, l, f =>
      match repairRound cfg peer l f with
      | none => none
      | some (l, f) => if f.aeResp.success then some f else repair cfg peer k l f

theorem repair_mono (h : repair cfg peer k l f = some f') (hk : k ≤ m) : repair cfg peer m l f = some f' := by
  induction k generalizing l f m with
  | zero => cases h
  | succ k ih =>
      obtain ⟨m, rfl⟩ : ∃ j, m = j + 1 := ⟨m - 1, by omega⟩
      rw [repair] at h ⊢
      cases hr : repairRound cfg peer l f with
      | none => rw [hr] at h; cases h
      | some next =>
          obtain ⟨l', f''⟩ := next
          rw [hr] at h
          dsimp only at h ⊢
          split
          · next hok => rw [if_pos hok] at h; exact h
          · next hok =>
            rw [if_neg hok] at h
            exact ih h (by omega)

namespace RaftNode

theorem handleAppendEntries_of_le (h : f.currentTerm ≤ req.term) (leader : Bytes) :
    f.handleAppendEntries leader req = (f.follow leader req.term).checkEntries req := by
  rw [handleAppendEntries, if_neg (by omega)]

theorem follow_getLogEntry (leader : Bytes) (t i : Nat) : (f.follow leader t).getLogEntry i = f.getLogEntry i :=
  catchUp_getLogEntry t i

theorem handleAppendEntries_short (h : f.currentTerm ≤ req.term) (hback : (back f.log).index < req.prevLogIndex)
    (leader : Bytes) :
    f.handleAppendEntries leader req = some ((f.follow leader req.term).reject (back f.log).index) := by
  rw [handleAppendEntries_of_le h, checkEntries, follow_log, if_pos hback]

theorem handleAppendEntries_below (h : f.currentTerm ≤ req.term) (hback : req.prevLogIndex ≤ (back f.log).index)
    (hsnap : req.prevLogIndex < f.snapshotLastIndex) (leader : Bytes) :
    f.handleAppendEntries leader req = some ((f.follow leader req.term).reject f.snapshotLastIndex) := by
  rw [handleAppendEntries_of_le h, checkEntries, follow_log, follow_snapshotLastIndex, if_neg (by omega),
    if_neg (by omega), if_pos (.inl (by omega))]

theorem handleAppendEntries_conflict (h : f.currentTerm ≤ req.term) (hback : req.prevLogIndex ≤ (back f.log).index)
    (hsnap : f.snapshotLastIndex ≤ req.prevLogIndex) (he : f.getLogEntry req.prevLogIndex = some e)
    (hne : e.term ≠ req.prevLogTerm) (hlog : popFrom f.log req.prevLogIndex = some log) (leader : Bytes) :
    f.handleAppendEntries leader req =
      some ({ f.follow leader req.term with log := log }.reject (back log).index).persistState := by
  have hany : (f.getLogEntry req.prevLogIndex).any (·.term ≠ req.prevLogTerm) = true := by
    rw [he, Option.any_some, decide_eq_true_eq]
    exact hne
  rw [handleAppendEntries_of_le h, checkEntries, follow_log, follow_getLogEntry, if_neg (by omega),
    if_pos ((follow_snapshotLastIndex leader req.term).trans_le hsnap), if_pos hany, truncateConflict,
    firstConflict_eq, follow_log]
  · dsimp only
    rw [hlog]
    rfl
  · rw [follow_log]
    exact hback
  · rw [follow_getLogEntry]
    exact hany

theorem handleAppendEntries_accept (h : f.currentTerm ≤ req.term) (hback : req.prevLogIndex ≤ (back f.log).index)
    (hsnap : f.snapshotLastIndex ≤ req.prevLogIndex)
    (hsame : ∀ e, f.getLogEntry req.prevLogIndex = some e → e.term = req.prevLogTerm) (leader : Bytes) :
    f.handleAppendEntries leader req = some ((f.follow leader req.term).acceptEntries req) := by
  have hany : ¬ (f.getLogEntry req.prevLogIndex).any (·.term ≠ req.prevLogTerm) = true := by
    rw [Option.any_eq_true]
    rintro ⟨e, he, hne⟩
    exact of_decide_eq_true hne (hsame e he)
  rw [handleAppendEntries_of_le h, checkEntries, follow_log, follow_snapshotLastIndex, follow_getLogEntry,
    if_neg (by omega), if_pos hsnap, if_neg hany]

end RaftNode

/-- The leader's next request to the peer builds on a position. -/
structure Turn (peer : Bytes) (l f : RaftNode) (p : Nat) : Prop where
  lead : l.state = .leader
  next : l.nextIndex peer = some (p + 1)
  term : f.currentTerm ≤ l.currentTerm

/-- A round fails and leaves the follower with a log and the leader with a position. -/
def LeadsTo (cfg : RaftConfig) (peer : Bytes) (l f : RaftNode) (log : List LogEntry) (p : Nat) : Prop :=
  ∃ g f', Turn peer { l with nextIndex := g } f' p ∧ f'.log = log ∧ f'.snapshotLastIndex = f.snapshotLastIndex ∧
    ∀ k, repair cfg peer (k + 1) l f = repair cfg peer k { l with nextIndex := g } f'

/-- After a failure the leader goes back to the position it is told, but not past its snapshot and not forward. -/
theorem Turn.failure (ht : Turn peer l f p)
    (hf : f.handleAppendEntries cfg.nodeId (l.heartbeatRequest cfg peer) = some f')
    (hresp : f'.aeResp = ⟨l.currentTerm, false, m⟩) (hterm : f'.currentTerm ≤ l.currentTerm)
    (hsnap : f'.snapshotLastIndex = f.snapshotLastIndex) :
    LeadsTo cfg peer l f f'.log (if m ≤ p then max m l.snapshotLastIndex else p) := by
  -- the leader then, whose next index alone has changed
  have hrepair {g : Bytes → Option Nat} (hg : l.handleAppendEntriesResponse cfg peer ⟨l.currentTerm, false, m⟩ =
      { l with nextIndex := g }) (k : Nat) :
      repair cfg peer (k + 1) l f = repair cfg peer k { l with nextIndex := g } f' := by
    rw [repair, repairRound, hf, Option.map_some, hresp, hg]
    dsimp only
    rw [hresp]
    rfl
  have hresponse : l.handleAppendEntriesResponse cfg peer ⟨l.currentTerm, false, m⟩ =
      if m < (l.nextIndex peer).getD 0 then { l with
        nextIndex := Function.update l.nextIndex peer (some (max (max (m + 1) (l.snapshotLastIndex + 1)) 1)) }
      else l := by
    rw [handleAppendEntriesResponse, if_neg (Nat.lt_irrefl _), if_neg (by simp [ht.lead])]
    rfl
  rw [ht.next, Option.getD_some] at hresponse
  by_cases hm : m ≤ p
  · rw [if_pos (by omega)] at hresponse
    rw [if_pos hm]
    refine ⟨Function.update l.nextIndex peer (some (max (max (m + 1) (l.snapshotLastIndex + 1)) 1)), f',
      ⟨ht.lead, ?_, hterm⟩, rfl, hsnap, hrepair hresponse⟩
    dsimp only
    rw [Function.update_self]
    congr 1
    omega
  · rw [if_neg (by omega)] at hresponse
    rw [if_neg hm]
    exact ⟨l.nextIndex, f', ⟨ht.lead, ht.next, hterm⟩, rfl, hsnap, hrepair hresponse⟩

theorem follow_currentTerm (h : f.currentTerm ≤ m) (leader : Bytes) : (f.follow leader m).currentTerm = m :=
  (catchUp_currentTerm m).trans (max_eq_right h)

theorem Turn.reject (cfg : RaftConfig) (ht : Turn peer l f p)
    (hf : f.handleAppendEntries cfg.nodeId (l.heartbeatRequest cfg peer) =
      some ((f.follow cfg.nodeId l.currentTerm).reject m)) :
    LeadsTo cfg peer l f f.log (if m ≤ p then max m l.snapshotLastIndex else p) := by
  have hterm := follow_currentTerm ht.term cfg.nodeId
  have h := ht.failure hf (congrArg (AppendEntriesResponse.mk · false m) hterm) hterm.le
    (follow_snapshotLastIndex cfg.nodeId l.currentTerm)
  have hlog : ((f.follow cfg.nodeId l.currentTerm).reject m).log = f.log := follow_log cfg.nodeId l.currentTerm
  rwa [hlog] at h

theorem Turn.short (cfg : RaftConfig) (ht : Turn peer l f p) (hback : (back f.log).index < p) :
    LeadsTo cfg peer l f f.log (max (back f.log).index l.snapshotLastIndex) := by
  have hreq := heartbeatRequest_eq cfg ht.next
  have h := ht.reject cfg (m := (back f.log).index) (by
    rw [hreq]
    exact handleAppendEntries_short ht.term hback cfg.nodeId)
  rwa [if_pos hback.le] at h

theorem Turn.below (cfg : RaftConfig) (ht : Turn peer l f p) (hback : p ≤ (back f.log).index)
    (hsnap : p < f.snapshotLastIndex) : LeadsTo cfg peer l f f.log p := by
  have hreq := heartbeatRequest_eq cfg ht.next
  have h := ht.reject cfg (m := f.snapshotLastIndex) (by
    rw [hreq]
    exact handleAppendEntries_below ht.term hback hsnap cfg.nodeId)
  rwa [if_neg (by omega)] at h

theorem Turn.conflict (cfg : RaftConfig) (ht : Turn peer l f p) (hback : p ≤ (back f.log).index)
    (hsnap : f.snapshotLastIndex ≤ p) (he : f.getLogEntry p = some e) (hne : e.term ≠ l.prevLogTerm p)
    (hlog : popFrom f.log p = some log) (hle : (back log).index ≤ p) :
    LeadsTo cfg peer l f log (max (back log).index l.snapshotLastIndex) := by
  have hreq := heartbeatRequest_eq cfg ht.next
  have hterm := follow_currentTerm ht.term cfg.nodeId
  have hf : f.handleAppendEntries cfg.nodeId (l.heartbeatRequest cfg peer) =
      some ({ f.follow cfg.nodeId l.currentTerm with log := log }.reject (back log).index).persistState := by
    rw [hreq]
    exact handleAppendEntries_conflict ht.term hback hsnap he hne hlog cfg.nodeId
  have h := ht.failure hf (congrArg (AppendEntriesResponse.mk · false (back log).index) hterm) hterm.le
    (follow_snapshotLastIndex cfg.nodeId l.currentTerm)
  rwa [if_pos hle] at h

theorem Turn.accept (cfg : RaftConfig) (ht : Turn peer l f p) (hback : p ≤ (back f.log).index)
    (hsnap : f.snapshotLastIndex ≤ p) (hsame : ∀ e, f.getLogEntry p = some e → e.term = l.prevLogTerm p) :
    ∃ f', f'.log = appendNew f.log (l.log.filter (p + 1 ≤ ·.index)) ∧ f'.snapshotLastIndex = f.snapshotLastIndex ∧
      ∀ k, repair cfg peer (k + 1) l f = some f' := by
  have hreq := heartbeatRequest_eq cfg ht.next
  have hf : f.handleAppendEntries cfg.nodeId (l.heartbeatRequest cfg peer) =
      some ((f.follow cfg.nodeId l.currentTerm).acceptEntries (l.heartbeatRequest cfg peer)) := by
    rw [hreq]
    exact handleAppendEntries_accept ht.term hback hsnap hsame cfg.nodeId
  refine ⟨(f.follow cfg.nodeId l.currentTerm).acceptEntries (l.heartbeatRequest cfg peer), ?_, ?_, fun k => ?_⟩
  · rw [acceptEntries_log, follow_log, hreq]
  · rw [acceptEntries_snapshotLastIndex, follow_snapshotLastIndex]
  · rw [repair, repairRound, hf]
    rfl

/-- Rounds that never succeed: the follower is compacted to the sentinel, or it ends before the leader's snapshot, or
the leader goes on from within the follower's. -/
def Stuck (l f : RaftNode) (p : Nat) : Prop :=
  (back f.log).index < f.snapshotLastIndex ∨
    (back f.log).index < p ∧ (back f.log).index < l.snapshotLastIndex ∨
    p ≤ (back f.log).index ∧ p < f.snapshotLastIndex

theorem repair_stuck (h : Stuck l f p) (ht : Turn peer l f p) (k : Nat) : repair cfg peer k l f = none := by
  induction k generalizing l f p with
  | zero => rfl
  | succ k ih =>
      have hstep {j : Nat} (hl : LeadsTo cfg peer l f f.log j) (hj : Stuck l f j) :
          repair cfg peer (k + 1) l f = none := by
        obtain ⟨g, f', ht', hlog, hsnap, hrepair⟩ := hl
        rw [hrepair]
        refine ih ?_ ht'
        rw [Stuck, hlog, hsnap]
        exact hj
      rcases Nat.lt_or_ge (back f.log).index p with hlt | hge
      · refine hstep (ht.short cfg hlt) ?_
        rcases h with h | ⟨-, h⟩ | ⟨h, -⟩
        · exact .inl h
        · exact .inr (.inl ⟨by omega, h⟩)
        · omega
      · rcases h with h | ⟨h, -⟩ | ⟨-, h⟩
        · exact hstep (ht.below cfg hge (hge.trans_lt h)) (.inl h)
        · omega
        · exact hstep (ht.below cfg hge h) (.inr (.inr ⟨hge, h⟩))

/-- The check that HandleAppendEntries makes on the entry at a previous index. -/
def Matches (l f : RaftNode) (i : Nat) : Prop := ∀ e, f.getLogEntry i = some e → e.term = l.prevLogTerm i

/-- An entry, or the sentinel, from which the leader can go on: none of the snapshots is past it. -/
def Anchor (l f : RaftNode) (i : Nat) : Prop :=
  f.snapshotLastIndex ≤ i ∧ l.snapshotLastIndex ≤ i ∧ ∃ e, f.getLogEntry i = some e ∧ e.term = l.prevLogTerm i

theorem Turn.accept_holds (cfg : RaftConfig) (ht : Turn peer l f p) (hA : Holds l.log l.snapshotLastIndex A)
    (hG : Holds f.log f.snapshotLastIndex G) (hback : (back f.log).index = G.length) (hp : p ≤ G.length)
    (hsnap : f.snapshotLastIndex ≤ p) (hl : l.snapshotLastIndex ≤ G.length) (hsame : Matches l f p) :
    ∃ f', Holds f'.log f.snapshotLastIndex (G ++ A.drop G.length) ∧ f'.snapshotLastIndex = f.snapshotLastIndex ∧
      ∀ k, repair cfg peer (k + 1) l f = some f' := by
  obtain ⟨f', hlog, hs, hrepair⟩ := ht.accept cfg (hp.trans hback.ge) hsnap hsame
  refine ⟨f', ?_, hs, hrepair⟩
  have hnum : Numbered (max l.snapshotLastIndex p) (A.drop (max l.snapshotLastIndex p)) := by
    have hd := hA.numbered.drop (max l.snapshotLastIndex p)
    rwa [Nat.zero_add] at hd
  have h := (hG.appendNew hback hnum (max_le hl hp)).1
  rwa [List.drop_drop, Nat.add_sub_cancel' (max_le hl hp), ← hA.filter p, ← hlog] at h

theorem Holds.find_congr (h : Holds log s A) {log' : List LogEntry} (h' : Holds log' s G) (hi : A.take i = G.take i) :
    log.find? (·.index = i) = log'.find? (·.index = i) := by
  cases i with
  | zero => rw [h.find_zero, h'.find_zero]
  | succ i =>
      rw [h.find_succ, h'.find_succ, ← List.getElem?_take_of_lt (Nat.lt_succ_self i), hi,
        List.getElem?_take_of_lt (Nat.lt_succ_self i)]

theorem Anchor.lt (h : Anchor l f i) (hG : Holds f.log f.snapshotLastIndex G) : f.snapshotLastIndex < i ∨ i = 0 := by
  obtain ⟨-, -, e, he, -⟩ := h
  cases i with
  | zero => exact .inr rfl
  | succ i =>
      rw [getLogEntry, hG.find_succ] at he
      split at he
      · next hle => exact .inl (Nat.lt_succ_of_le hle)
      · cases he

/-- A conflict takes the follower's log back to before the position. The leader goes on there, unless the log then ends
before the leader's snapshot or with the follower's. -/
theorem Turn.conflict_holds (cfg : RaftConfig) (ht : Turn peer l f (p + 1)) (hG : Holds f.log f.snapshotLastIndex G)
    (hback : (back f.log).index = G.length) (hp : p + 1 ≤ G.length) (hsnap : f.snapshotLastIndex ≤ p)
    (hne : ¬ Matches l f (p + 1)) : ∃ log, Holds log f.snapshotLastIndex (G.take p) ∧
      LeadsTo cfg peer l f log (max (back log).index l.snapshotLastIndex) := by
  rw [Matches] at hne
  push Not at hne
  obtain ⟨e, he, hterm⟩ := hne
  obtain ⟨log, hlog, hholds⟩ := hG.pop hsnap (Nat.le_of_succ_le hp)
  refine ⟨log, hholds, ht.conflict cfg (hp.trans hback.ge) (Nat.le_succ_of_le hsnap) he hterm hlog ?_⟩
  have := hholds.back_le
  rw [List.length_take] at this
  omega

theorem Holds.back_take (h : Holds log s (G.take p)) (hp : p ≤ G.length) (hs : s < p ∨ p = 0) :
    (back log).index = p := by
  have hlen : (G.take p).length = p := List.length_take_of_le hp
  rcases hs with hlt | rfl
  · rw [(h.back_of_lt (by omega)).2, hlen]
  · have := h.back_le
    omega

theorem Holds.getLogEntry_pos (h : Holds f.log s G) (hs : s < i) (hi : i ≤ G.length) :
    ∃ e, f.getLogEntry i = some e ∧ G[i - 1]? = some e := by
  obtain ⟨i, rfl⟩ : ∃ j, i = j + 1 := ⟨i - 1, by omega⟩
  refine ⟨G[i], ?_, List.getElem?_eq_getElem hi⟩
  rw [getLogEntry, h.find_succ, if_pos (Nat.le_of_lt_succ hs), List.getElem?_eq_getElem hi]

theorem Anchor.matches (h : Anchor l f i) : Matches l f i := by
  obtain ⟨-, -, e, he, hterm⟩ := h
  intro e' he'
  rw [he] at he'
  cases he'
  exact hterm

theorem matches_zero (hG : Holds f.log s G) (hl : l.snapshotLastIndex = 0 → l.snapshotLastTerm = 0) :
    Matches l f 0 := by
  intro e he
  rw [getLogEntry, hG.find_zero] at he
  cases he
  rw [RaftNode.prevLogTerm, if_neg (Nat.not_lt_zero _)]
  split
  · next h => exact (hl h.symm).symm
  · rfl

/-- Where the rounds get to that go on from a position after a failure: to the highest anchor below it, or nowhere. -/
def GoesBack (cfg : RaftConfig) (peer : Bytes) (l f : RaftNode) (A G : List LogEntry) (p k : Nat) : Prop :=
  (∃ q ≤ p, Anchor l f q ∧ ∃ f', repair cfg peer k l f = some f' ∧ f'.snapshotLastIndex = f.snapshotLastIndex ∧
    Holds f'.log f.snapshotLastIndex (G.take q ++ A.drop q)) ∨
  (∀ i ≤ p, ¬ Anchor l f i) ∧ ∀ k, repair cfg peer k l f = none

theorem Anchor.take_iff (hG : Holds f.log f.snapshotLastIndex G) (hf : Holds f'.log f.snapshotLastIndex (G.take p))
    (hs : f'.snapshotLastIndex = f.snapshotLastIndex) (hi : i ≤ p) : Anchor l f' i ↔ Anchor l f i := by
  rw [Anchor, Anchor, hs, getLogEntry, getLogEntry, hf.find_congr hG (by rw [List.take_take, min_eq_left hi])]

theorem Turn.conflict_goesBack (ht : Turn peer l f (p + 1)) (hG : Holds f.log f.snapshotLastIndex G)
    (hback : (back f.log).index = G.length) (hp : p + 1 ≤ G.length) (hsnap : f.snapshotLastIndex ≤ p)
    (hne : ¬ Matches l f (p + 1))
    (hrest : ∀ g f', Turn peer { l with nextIndex := g } f' p → f'.snapshotLastIndex = f.snapshotLastIndex →
      Holds f'.log f'.snapshotLastIndex (G.take p) → (back f'.log).index = p → l.snapshotLastIndex ≤ p →
      f.snapshotLastIndex < p ∨ p = 0 → GoesBack cfg peer { l with nextIndex := g } f' A (G.take p) p k) :
    GoesBack cfg peer l f A G p (k + 1) := by
  obtain ⟨log, hlog, g, f', ht', rfl, hs, hrepair⟩ := ht.conflict_holds cfg hG hback hp hsnap hne
  by_cases hroom : l.snapshotLastIndex ≤ p ∧ (f.snapshotLastIndex < p ∨ p = 0)
  · obtain ⟨hl, hfs⟩ := hroom
    have hend : (back f'.log).index = p := hlog.back_take (by omega) hfs
    rw [hend, max_eq_left hl] at ht'
    rcases hrest g f' ht' hs (by rwa [hs]) hend hl hfs with ⟨q, hq, hanchor, m, hm, hms, hmlog⟩ | ⟨hnone, hstuck⟩
    · refine .inl ⟨q, hq, (Anchor.take_iff hG hlog hs hq).mp hanchor, m, by rw [hrepair, hm], hms.trans hs, ?_⟩
      rw [hs, List.take_take, min_eq_left hq] at hmlog
      exact hmlog
    · refine .inr ⟨fun i hi ha => hnone i hi ((Anchor.take_iff hG hlog hs hi).mpr ha), fun j => ?_⟩
      cases j with
      | zero => rfl
      | succ j => rw [hrepair, hstuck]
  · have hle : (back f'.log).index ≤ p := hlog.back_le.trans (List.length_take_le _ _)
    refine .inr ⟨fun i hi ha => hroom ⟨ha.2.1.trans hi, ?_⟩, fun j => ?_⟩
    · rcases ha.lt hG with hlt | rfl
      · exact .inl (hlt.trans_le hi)
      · have := ha.1
        omega
    · cases j with
      | zero => rfl
      | succ j =>
          rw [hrepair]
          refine repair_stuck ?_ ht' j
          rw [not_and_or, not_or] at hroom
          rcases hroom with hl | ⟨hs', hp0⟩
          · exact .inr (.inl ⟨by omega, by dsimp only; omega⟩)
          · -- the follower's snapshot has left nothing but the sentinel
            have hlen : (G.take p).length = p := List.length_take_of_le (by omega)
            have hb := hlog.back_of_eq (by omega)
            refine .inl ?_
            rw [hb, hs]
            show 0 < f.snapshotLastIndex
            omega

theorem Turn.goesBack_anchor (ht : Turn peer l f p) (hA : Holds l.log l.snapshotLastIndex A)
    (hG : Holds f.log f.snapshotLastIndex G) (hlen : G.length = p) (hback : (back f.log).index = p)
    (ha : Anchor l f p) (k : Nat) : GoesBack cfg peer l f A G p (k + 1) := by
  obtain ⟨f', hlog, hs, hrepair⟩ := ht.accept_holds cfg hA hG (hback.trans hlen.symm) hlen.ge ha.1
    (ha.2.1.trans hlen.ge) ha.matches
  refine .inl ⟨p, le_rfl, ha, f', hrepair k, hs, ?_⟩
  rwa [List.take_of_length_le hlen.le, ← hlen]

/-- The rounds on from the follower's end: each goes one entry back, and there are no more of them than entries. -/
theorem Turn.goesBack (ht : Turn peer l f p) (hA : Holds l.log l.snapshotLastIndex A)
    (hl0 : l.snapshotLastIndex = 0 → l.snapshotLastTerm = 0) (hG : Holds f.log f.snapshotLastIndex G)
    (hlen : G.length = p) (hback : (back f.log).index = p) (hl : l.snapshotLastIndex ≤ p)
    (hs : f.snapshotLastIndex < p ∨ p = 0) : GoesBack cfg peer l f A G p (p - f.snapshotLastIndex + 1) := by
  induction p generalizing l f G with
  | zero =>
      have hz : f.snapshotLastIndex = 0 := by have := hG.le; omega
      have hget : f.getLogEntry 0 = some {} := by rw [getLogEntry, hG.find_zero]
      exact ht.goesBack_anchor hA hG hlen hback ⟨hz.le, hl, {}, hget, matches_zero hG hl0 _ hget⟩ _
  | succ p ih =>
      obtain ⟨e, he, -⟩ := hG.getLogEntry_pos (i := p + 1) (by omega) hlen.ge
      by_cases hm : Matches l f (p + 1)
      · exact ht.goesBack_anchor hA hG hlen hback ⟨by omega, hl, e, he, hm e he⟩ _
      · have hnot : ¬ Anchor l f (p + 1) := fun ha => hm ha.matches
        have hfs : f.snapshotLastIndex ≤ p := by omega
        have hgo : GoesBack cfg peer l f A G p (p - f.snapshotLastIndex + 1 + 1) := by
          refine ht.conflict_goesBack hG (hback.trans hlen.symm) hlen.ge hfs hm fun g f' ht' hs' hG' hb hlp hp => ?_
          rw [← hs']
          refine ih ht' hA hl0 hG' (List.length_take_of_le (by omega)) hb hlp (by rwa [hs'])
        rw [show p + 1 - f.snapshotLastIndex + 1 = p - f.snapshotLastIndex + 1 + 1 by omega]
        rcases hgo with ⟨q, hq, ha, hrest⟩ | ⟨hnone, hstuck⟩
        · exact .inl ⟨q, Nat.le_succ_of_le hq, ha, hrest⟩
        · refine .inr ⟨fun i hi ha => ?_, hstuck⟩
          rcases hi.lt_or_eq with hlt | rfl
          · exact hnone i (Nat.le_of_lt_succ hlt) ha
          · exact hnot ha

/-- A follower's log, with its snapshot, has at every index up to a leader's last what the leader's log and snapshot
position have there. -/
def AgreesWith (f l : RaftNode) : Prop :=
  ∀ i, f.snapshotLastIndex < i → i ≤ max (back l.log).index l.snapshotLastIndex →
    ∃ e, f.getLogEntry i = some e ∧ (l.snapshotLastIndex < i → e ∈ l.log) ∧
      (i = l.snapshotLastIndex → e.term = l.snapshotLastTerm)

/-- What two logs keep where nothing else has gone wrong: they are numbered on from their snapshots, and match. -/
structure Regular (l f : RaftNode) : Prop where
  leader : Numbered l.snapshotLastIndex l.log.tail
  follower : Numbered f.snapshotLastIndex f.log.tail
  unsnapped : l.snapshotLastIndex = 0 → l.snapshotLastTerm = 0
  matching : ∀ e ∈ l.log, ∀ e' ∈ f.log, e'.index = e.index → e'.term = e.term → ∀ x ∈ f.log.tail, x.index ≤ e.index →
    (l.snapshotLastIndex < x.index → x ∈ l.log) ∧ (x.index = l.snapshotLastIndex → x.term = l.snapshotLastTerm)

theorem Regular.congr (h : Regular l f) (g : Bytes → Option Nat) (hlog : f'.log = f.log)
    (hs : f'.snapshotLastIndex = f.snapshotLastIndex) : Regular { l with nextIndex := g } f' where
  leader := h.leader
  follower := by rw [hlog, hs]; exact h.follower
  unsnapped := h.unsnapped
  matching := by rw [hlog]; exact h.matching

theorem exists_holds (hlog : log = {} :: log.tail) (h : Numbered s log.tail) : ∃ L, Holds log s L := by
  have hpad : Numbered 0 ((List.range s).map fun i => (⟨0, i + 1, []⟩ : LogEntry)) := by
    intro k e hk
    rw [List.getElem?_map, Option.map_eq_some_iff] at hk
    obtain ⟨i, hi, rfl⟩ := hk
    rw [List.getElem?_eq_some_iff] at hi
    obtain ⟨hk, rfl⟩ := hi
    simp
  refine ⟨(List.range s).map (fun i => ⟨0, i + 1, []⟩) ++ log.tail, ?_, by simp, hpad.append (by simpa using h)⟩
  rw [List.drop_left' (by simp)]
  exact hlog

theorem Holds.index_mem (h : Holds log s G) (he : e ∈ log) : e = {} ∨ s < e.index ∧ e.index ≤ G.length := by
  refine (h.mem_iff.mp he).imp_right fun ⟨k, hk, hget⟩ => ?_
  have := h.numbered k e hget
  have := (List.getElem?_eq_some_iff.mp hget).1
  omega

theorem Holds.getLogEntry_of_mem (h : Holds f.log s G) (he : e ∈ f.log) : f.getLogEntry e.index = some e := by
  rcases h.mem_iff.mp he with rfl | ⟨k, hk, hget⟩
  · exact h.find_zero
  · rw [h.numbered k e hget, Nat.zero_add, getLogEntry, h.find_succ, if_pos hk, hget]

/-- The leader has no entry past its last, so none of a follower's passes the check there. -/
theorem Anchor.le_length (ha : Anchor l f i) (hA : Holds l.log l.snapshotLastIndex A) (hdate : Dated f.log) :
    i ≤ A.length := by
  by_contra hlt
  obtain ⟨-, hl, e, he, hterm⟩ := ha
  obtain ⟨hmem, hidx⟩ := getLogEntry_index he
  have hle := hA.le
  have hnone : l.getLogEntry i = none := by
    obtain ⟨i, rfl⟩ : ∃ j, i = j + 1 := ⟨i - 1, by omega⟩
    rw [getLogEntry, hA.find_succ, List.getElem?_eq_none (by omega), ite_self]
  rw [RaftNode.prevLogTerm, if_pos (by omega), hnone] at hterm
  rcases hdate e hmem with rfl | hpos
  · have hidx : 0 = i := hidx
    omega
  · exact absurd hterm hpos.ne'

theorem Holds.getLogEntry_splice (h : Holds f'.log s (G.take p ++ A.drop p)) (hG : Holds f.log s G)
    (hp : p ≤ G.length) (hi : i ≤ p) : f'.getLogEntry i = f.getLogEntry i := by
  apply h.find_congr hG
  rw [List.take_append_of_le_length (by rw [List.length_take_of_le hp]; exact hi), List.take_take, min_eq_left hi]

theorem Holds.getLogEntry_spliced (h : Holds f'.log s (G.take p ++ A.drop p)) (hA : Holds l.log l.snapshotLastIndex A)
    (hp : p ≤ G.length) (hl : l.snapshotLastIndex ≤ p) (hpi : p < i) (hsi : s < i) (hi : i ≤ A.length) :
    ∃ e, f'.getLogEntry i = some e ∧ e ∈ l.log := by
  have hlen : (G.take p).length = p := List.length_take_of_le hp
  obtain ⟨i, rfl⟩ : ∃ j, i = j + 1 := ⟨i - 1, by omega⟩
  refine ⟨A[i], ?_, hA.mem_iff.mpr (.inr ⟨i, by omega, List.getElem?_eq_getElem hi⟩)⟩
  rw [getLogEntry, h.find_succ, if_pos (by omega), List.getElem?_append_right (by omega), List.getElem?_drop, hlen,
    Nat.add_sub_cancel' (by omega), List.getElem?_eq_getElem hi]

/-- A follower that keeps its log up to a position and has the leader's from there on agrees with the leader if the
check finds nothing to object to at the last index that both have had. -/
theorem Regular.agrees_iff (hr : Regular l f) (hA : Holds l.log l.snapshotLastIndex A)
    (hG : Holds f.log f.snapshotLastIndex G) (hf : Holds f'.log f.snapshotLastIndex (G.take p ++ A.drop p))
    (hs : f'.snapshotLastIndex = f.snapshotLastIndex) (hp : p ≤ G.length) (hl : l.snapshotLastIndex ≤ p) :
    AgreesWith f' l ↔ Matches l f (min A.length p) := by
  have hlt : l.snapshotLastIndex ≤ min A.length p := le_min hA.le hl
  rw [AgreesWith, hA.max_back, hs]
  constructor
  · intro h
    rcases Nat.lt_or_ge f.snapshotLastIndex (min A.length p) with hfs | hge
    · obtain ⟨e, he, hmem, hterm⟩ := h _ hfs (min_le_left _ _)
      have hidx := (getLogEntry_index he).2
      rw [hf.getLogEntry_splice hG hp (min_le_right _ _)] at he
      intro e' he'
      rw [he] at he'
      cases he'
      rcases hlt.lt_or_eq with hlt | heq
      · have hle := hA.getLogEntry_of_mem (hmem hlt)
        rw [hidx] at hle
        rw [prevLogTerm_of_getLogEntry hlt hle]
      · rw [← heq, prevLogTerm_snapshot]
        exact hterm heq.symm
    · generalize min A.length p = t at hge
      cases t with
      | zero => exact matches_zero hG hr.unsnapped
      | succ t =>
          intro e he
          rw [getLogEntry, hG.find_succ, if_neg (by omega)] at he
          cases he
  · intro h i hfi hiA
    rcases Nat.lt_or_ge p i with hpi | hip
    · obtain ⟨e, he, hmem⟩ := hf.getLogEntry_spliced hA hp hl hpi hfi hiA
      exact ⟨e, he, fun _ => hmem, fun hi => absurd hi (by omega)⟩
    · have hit : i ≤ min A.length p := le_min hiA hip
      obtain ⟨x, hx, -⟩ := hG.getLogEntry_pos hfi (hip.trans hp)
      obtain ⟨e, he, -⟩ := hG.getLogEntry_pos (hfi.trans_le hit) ((min_le_right _ _).trans hp)
      have hterm := h e he
      refine ⟨x, by rw [hf.getLogEntry_splice hG hp hip, hx], ?_⟩
      obtain ⟨hxmem, hxi⟩ := getLogEntry_index hx
      rcases hlt.lt_or_eq with hlt | heq
      · obtain ⟨y, hy, -⟩ := hA.getLogEntry_pos hlt (min_le_left _ _)
        obtain ⟨hymem, hyi⟩ := getLogEntry_index hy
        rw [prevLogTerm_of_getLogEntry hlt hy] at hterm
        obtain ⟨hemem, hei⟩ := getLogEntry_index he
        have hxtail : x ∈ f.log.tail := by
          rw [hG.eq, List.mem_cons] at hxmem
          rcases hxmem with rfl | hmem
          · have hxi : 0 = i := hxi
            omega
          · rwa [hG.eq]
        have := hr.matching y hymem e hemem (hei.trans hyi.symm) hterm x hxtail (by omega)
        rwa [hxi] at this
      · refine ⟨fun hlt' => absurd hlt' (by omega), fun hi => ?_⟩
        rw [← heq, ← hi, hx] at he
        cases he
        rw [hterm, ← heq, prevLogTerm_snapshot]

/-- What is left to ask where the leader goes on from a position that the follower's log reaches. -/
def Reached (l f : RaftNode) (q : Nat) : Prop :=
  let last := (back f.log).index
  Matches l f q ∧ l.snapshotLastIndex ≤ last ∧ Matches l f (min (max (back l.log).index l.snapshotLastIndex) last) ∨
    ¬ Matches l f q ∧ ∃ i < q, Anchor l f i

theorem reached_congr (hlog : f'.log = f.log) (hs : f'.snapshotLastIndex = f.snapshotLastIndex) :
    Reached l f' p ↔ Reached l f p := by
  simp only [Reached, Matches, Anchor, getLogEntry, hlog, hs]

theorem Turn.not_agrees (ht : Turn peer l f p) (hA : Holds l.log l.snapshotLastIndex A)
    (hG : Holds f.log f.snapshotLastIndex G) (hp : p ≤ (back f.log).index) (hsnap : f.snapshotLastIndex ≤ p)
    (hm : Matches l f p) (hl : (back f.log).index < l.snapshotLastIndex) :
    ¬ ∃ f', repair cfg peer (k + 1) l f = some f' ∧ AgreesWith f' l := by
  obtain ⟨f', hlog, hs, hrepair⟩ := ht.accept cfg hp hsnap hm
  rintro ⟨f'', hf, hagree⟩
  rw [hrepair] at hf
  cases hf
  -- what the leader sends lies behind its snapshot
  obtain ⟨e, he, -⟩ := hagree ((back f.log).index + 1) (by omega) (by omega)
  obtain ⟨hmem, hidx⟩ := getLogEntry_index he
  rw [hlog] at hmem
  rcases mem_appendNew hmem with hmem | hmem
  · have hlen := hG.back_index (hsnap.trans hp)
    rcases hG.index_mem hmem with rfl | ⟨-, hle⟩
    · cases hidx
    · omega
  · obtain ⟨hmem, -⟩ := List.mem_filter.mp hmem
    rcases hA.index_mem hmem with rfl | ⟨hlt, -⟩
    · cases hidx
    · omega

theorem not_repairs_of_none {P : RaftNode → Prop} (h : ∀ k, repair cfg peer k l f = none) :
    ¬ ∃ f', repair cfg peer k l f = some f' ∧ P f' := by
  rintro ⟨f', hf, -⟩
  rw [h] at hf
  cases hf

theorem Turn.aligned (ht : Turn peer l f p) (hr : Regular l f) (hA : Holds l.log l.snapshotLastIndex A)
    (hG : Holds f.log f.snapshotLastIndex G) (hdate : Dated f.log) (hp : p ≤ (back f.log).index)
    (hk : p - f.snapshotLastIndex + 1 ≤ k) :
    (∃ f', repair cfg peer k l f = some f' ∧ AgreesWith f' l) ↔ f.snapshotLastIndex ≤ p ∧ Reached l f p := by
  obtain ⟨k, rfl⟩ : ∃ j, k = j + 1 := ⟨k - 1, by omega⟩
  rcases Nat.lt_or_ge p f.snapshotLastIndex with hlt | hsnap
  · exact iff_of_false (not_repairs_of_none (repair_stuck (.inr (.inr ⟨hp, hlt⟩)) ht)) fun h => absurd h.1 hlt.not_ge
  rw [and_iff_right hsnap]
  have hback := hG.back_index (hsnap.trans hp)
  have hpG : p ≤ G.length := hp.trans hback.le
  by_cases hm : Matches l f p
  · have hreach : Reached l f p ↔ l.snapshotLastIndex ≤ G.length ∧ Matches l f (min A.length G.length) := by
      simp only [Reached, hm, hback, hA.max_back, true_and, not_true_eq_false, false_and, or_false]
    rw [hreach]
    rcases Nat.lt_or_ge G.length l.snapshotLastIndex with hlt | hl
    · exact iff_of_false (ht.not_agrees hA hG hp hsnap hm (hback.trans_lt hlt)) fun h => absurd h.1 hlt.not_ge
    · rw [and_iff_right hl]
      obtain ⟨f', hlog, hs, hrepair⟩ := ht.accept_holds cfg hA hG hback hpG hsnap hl hm
      rw [← hr.agrees_iff hA hG (by rwa [List.take_length]) hs le_rfl hl, hrepair]
      constructor
      · rintro ⟨f'', hf, h⟩
        cases hf
        exact h
      · exact fun h => ⟨f', rfl, h⟩
  · have hreach : Reached l f p ↔ ∃ i < p, Anchor l f i := by
      simp only [Reached, hm, not_false_eq_true, false_and, true_and, false_or]
    rw [hreach]
    obtain ⟨q, rfl⟩ : ∃ q, p = q + 1 := by
      cases p with
      | zero => exact absurd (matches_zero hG hr.unsnapped) hm
      | succ q => exact ⟨q, rfl⟩
    have hfs : f.snapshotLastIndex ≤ q := by
      by_contra hlt
      refine hm fun e he => ?_
      rw [getLogEntry, hG.find_succ, if_neg hlt] at he
      cases he
    have hgo : GoesBack cfg peer l f A G q (q - f.snapshotLastIndex + 1 + 1) := by
      refine ht.conflict_goesBack hG hback hpG hfs hm fun g f' ht' hs' hG' hb hl hq => ?_
      rw [← hs']
      exact ht'.goesBack hA hr.unsnapped hG' (List.length_take_of_le (by omega)) hb hl (by rwa [hs'])
    rcases hgo with ⟨i, hi, ha, f', hrepair, hs, hlog⟩ | ⟨hnone, hstuck⟩
    · have hiA := ha.le_length hA hdate
      refine iff_of_true ⟨f', repair_mono hrepair (by omega), ?_⟩ ⟨i, Nat.lt_succ_of_le hi, ha⟩
      rw [hr.agrees_iff hA hG hlog hs (by omega) ha.2.1, min_eq_right hiA]
      exact ha.matches
    · refine iff_of_false (not_repairs_of_none hstuck) ?_
      rintro ⟨i, hi, ha⟩
      exact hnone i (Nat.le_of_lt_succ hi) ha

/-- Rounds as many as the two logs have entries, the sentinels with them, lead to a success and to a follower that
agrees with the leader. -/
def Repairs (cfg : RaftConfig) (peer : Bytes) (l f : RaftNode) : Prop :=
  ∃ f', repair cfg peer (l.log.length + f.log.length) l f = some f' ∧ AgreesWith f' l

/-- The follower's log reaches the leader's snapshot, where it is shorter than the leader takes it to be, and the
follower's snapshot is not past where the leader then goes on from. -/
def Repairable (l f : RaftNode) (p : Nat) : Prop :=
  let last := (back f.log).index
  (last < p → l.snapshotLastIndex ≤ last) ∧ f.snapshotLastIndex ≤ min p last ∧ Reached l f (min p last)

theorem Turn.repairs_iff (ht : Turn peer l f p) (hr : Regular l f) (hl : l.log = {} :: l.log.tail)
    (hf : f.log = {} :: f.log.tail) (hdate : Dated f.log) : Repairs cfg peer l f ↔ Repairable l f p := by
  obtain ⟨A, hA⟩ := exists_holds hl hr.leader
  obtain ⟨G, hG⟩ := exists_holds hf hr.follower
  have hlen : f.log.length = G.length - f.snapshotLastIndex + 1 := by rw [hG.eq, List.length_cons, List.length_drop]
  have hlen' : l.log.length = l.log.tail.length + 1 := by conv_lhs => rw [hl, List.length_cons]
  rw [Repairs, Repairable]
  generalize hk : l.log.length + f.log.length = k
  obtain ⟨k, rfl⟩ : ∃ j, k = j + 1 := ⟨k - 1, by omega⟩
  have hb := hG.back_le
  rcases Nat.lt_or_ge (back f.log).index p with hlt | hge
  · rw [min_eq_right hlt.le]
    rcases Nat.lt_or_ge (back f.log).index l.snapshotLastIndex with hls | hls
    · exact iff_of_false (not_repairs_of_none (repair_stuck (.inr (.inl ⟨hlt, hls⟩)) ht))
        fun h => absurd (h.1 hlt) hls.not_ge
    · obtain ⟨g, f', ht', hlog, hs, hrepair⟩ := ht.short cfg hlt
      rw [max_eq_left hls] at ht'
      rw [hrepair, and_iff_right fun _ => hls, ← reached_congr hlog hs, ← hs]
      exact ht'.aligned (hr.congr g hlog hs) hA (by rwa [hlog, hs]) (by rwa [hlog]) (by rw [hlog])
        (by rw [hs]; omega)
  · rw [min_eq_left hge, ht.aligned hr hA hG hdate hge (by omega)]
    exact (and_iff_right fun h => absurd h hge.not_gt).symm

theorem Holds.tail_numbered (h : Holds log s G) : Numbered s log.tail := by
  have hd := h.numbered.drop s
  rw [Nat.zero_add] at hd
  rwa [h.eq]

/-- Where the replication protocol is kept, any two nodes have regular logs. -/
theorem Mirror.regular {a : Ghost} {c : Cluster} (h : Mirror peers a c) (x y : Bytes) :
    Regular (c.node x) (c.node y) where
  leader := (h.node x).log.tail_numbered
  follower := (h.node y).log.tail_numbered
  unsnapped hs := by rw [(h.node x).snapTerm, hs]; rfl
  matching e he e' he' hi ht w hw hle := by
    have hx := (h.node x).log
    have hy := (h.node y).log
    rw [hy.eq, List.tail_cons] at hw
    obtain ⟨j, hj⟩ := List.mem_iff_getElem?.mp hw
    rw [List.getElem?_drop] at hj
    have hwi := hy.numbered _ _ hj
    generalize (c.node y).snapshotLastIndex + j = j at hj hwi
    obtain rfl | ⟨k, -, hk⟩ := hx.mem_iff.mp he
    · have hle : w.index ≤ 0 := hle
      omega
    obtain rfl | ⟨k', -, hk'⟩ := hy.mem_iff.mp he'
    · have hi : 0 = e.index := hi
      omega
    have hki := hx.numbered k e hk
    have hki' := hy.numbered k' e' hk'
    obtain rfl : k' = k := by omega
    have htake := (h.inv.matching.log x).matching (h.inv.matching.log y) hk hk' ht.symm
    have hget : (a.log x)[j]? = some w := by
      rw [← List.getElem?_take_of_lt (j := k' + 1) (by omega), htake, List.getElem?_take_of_lt (by omega), hj]
    refine ⟨fun hs => hx.mem_iff.mpr (.inr ⟨j, by omega, hget⟩), fun hs => ?_⟩
    rw [(h.node x).snapTerm, ← hs, hwi, Nat.zero_add, termAt_succ hget]

/-- In whatever state a run leaves two nodes with regular logs, the exchange between them leads to agreement if and only
if the position the leader goes on from lets it. -/
theorem log_repair {guard : Cluster → Action → Prop} {acts : List Action} {c : Cluster}
    (h : Runs.Run (step peers) guard start acts c) {x y : Bytes} (hlead : (c.node x).state = .leader)
    (hy : y ∈ (RaftConfig.mk x peers).others) (hterm : (c.node y).currentTerm ≤ (c.node x).currentTerm)
    (hr : Regular (c.node x) (c.node y)) : Repairs ⟨x, peers⟩ y (c.node x) (c.node y) ↔
      Repairable (c.node x) (c.node y) ((c.node x).heartbeatRequest ⟨x, peers⟩ y).prevLogIndex := by
  have hdate := run_dated h
  have hstock : (c.node x).Stocked ⟨x, peers⟩ := (run_forall (I := fun w p => p.node.Stocked ⟨w, peers⟩)
    (fun hi _ _ hp => hp.stocked hi) (fun _ hq => absurd hq List.not_mem_nil) (Mirror.start peers).stocked h).2 x
  obtain ⟨j, hj⟩ := hstock.leader hlead y hy
  have ht : Turn y (c.node x) (c.node y) j := ⟨hlead, hj, hterm⟩
  rw [heartbeatRequest_eq _ hj]
  exact ht.repairs_iff hr (hdate.intact x).sentinel (hdate.intact y).sentinel (hdate.log y)

/-- A follower that kept an entry of a leader that lost its place takes over what the others agreed on instead. -/
theorem log_repair_trio : ∃ acts c, SoundRun Trio.peers start acts c ∧ (c.node Trio.a).log = [{}, ⟨1, 1, [1]⟩] ∧
    Repairs ⟨Trio.c, Trio.peers⟩ Trio.a (c.node Trio.c) (c.node Trio.a) := by
  obtain ⟨c, h, hp⟩ := Runs.exists_run_of_exec (step Trio.peers)
    (fun c act => (noCrash act && sound Trio.peers c act) = true) start
    (Trio.election Trio.a Trio.b 1 0 0 ++ [.propose Trio.a [1]] ++ Trio.election Trio.b Trio.c 2 0 0 ++
      [.propose Trio.b [2]] ++ Trio.heartbeats Trio.b ++
      Trio.exchange Trio.b Trio.c ⟨2, Trio.b, 0, 0, [⟨2, 1, [2]⟩], 0⟩ 1 ++ Trio.election Trio.c Trio.b 3 1 2)
    (fun c => ((c.node Trio.c).state = .leader ∧ (c.node Trio.a).currentTerm ≤ (c.node Trio.c).currentTerm) ∧
      ((c.node Trio.a).log = [{}, ⟨1, 1, [1]⟩] ∧ (c.node Trio.a).snapshotLastIndex = 0) ∧
      ((c.node Trio.c).log = [{}, ⟨2, 1, [2]⟩] ∧ (c.node Trio.c).snapshotLastIndex = 0 ∧
        (c.node Trio.c).snapshotLastTerm = 0) ∧
      ((c.node Trio.c).heartbeatRequest ⟨Trio.c, Trio.peers⟩ Trio.a).prevLogIndex = 1) rfl
  obtain ⟨⟨hlead, hterm⟩, ⟨hf, hfs⟩, ⟨hl, hls, hlt⟩, hprev⟩ := of_decide_eq_true hp
  obtain ⟨a, -, hs⟩ := (Sound.start Trio.peers).run (by decide) (by decide) h
  refine ⟨_, c, h, hf, (log_repair h hlead (by decide) hterm (hs.mirror.regular _ _)).mpr ?_⟩
  -- the entry at 1 is of another term, and both have the sentinel
  rw [hprev, Repairable, hf, hfs, hls]
  refine ⟨fun _ => Nat.zero_le _, Nat.zero_le _, .inr ⟨fun hm => ?_, 0, by decide, ?_⟩⟩
  · have := hm ⟨1, 1, [1]⟩ (by rw [getLogEntry, hf]; rfl)
    rw [RaftNode.prevLogTerm, hls, hlt, getLogEntry, hl] at this
    exact absurd this (by decide)
  · refine ⟨hfs.le, hls.le, {}, by rw [getLogEntry, hf]; rfl, ?_⟩
    rw [RaftNode.prevLogTerm, hls, hlt]
    rfl

/-- The entry a follower lacks is in the leader's snapshot only, and no snapshot is ever sent. -/
theorem repair_goes_on : ∃ acts c, Runs.Run (step Trio.peers) (fun _ _ => True) start acts c ∧
    (c.node Trio.b).state = .leader ∧ (c.node Trio.c).currentTerm ≤ (c.node Trio.b).currentTerm ∧
    ∀ k, repair ⟨Trio.b, Trio.peers⟩ Trio.c k (c.node Trio.b) (c.node Trio.c) = none := by
  obtain ⟨c, h, hp⟩ := Runs.exists_run_of_exec (step Trio.peers) (fun _ _ => True) start
    (Trio.election Trio.a Trio.b 1 0 0 ++ [.propose Trio.a [1]] ++ Trio.heartbeats Trio.a ++
      Trio.exchange Trio.a Trio.b ⟨1, Trio.a, 0, 0, [⟨1, 1, [1]⟩], 0⟩ 1 ++ Trio.heartbeats Trio.a ++
      [.deliver ⟨Trio.a, Trio.b, .appendEntries ⟨1, Trio.a, 1, 1, [], 1⟩⟩] ++ Trio.election Trio.b Trio.a 2 1 1 ++
      [.snapshot Trio.b [7], .snapshot Trio.b [7], .snapshot Trio.b [7]])
    (fun c => (c.node Trio.b).state = .leader ∧ (c.node Trio.c).currentTerm ≤ (c.node Trio.b).currentTerm ∧
      (c.node Trio.b).nextIndex Trio.c = some 2 ∧ (c.node Trio.b).snapshotLastIndex = 1 ∧
      (c.node Trio.c).log = [{}]) rfl
  obtain ⟨hlead, hterm, hnext, hls, hf⟩ := of_decide_eq_true hp
  refine ⟨_, c, h, hlead, hterm, repair_stuck (p := 1) (.inr (.inl ?_)) ⟨hlead, hnext, hterm⟩⟩
  rw [hf, hls]
  decide

end MiniStorage.Raft
