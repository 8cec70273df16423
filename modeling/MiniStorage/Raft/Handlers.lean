import MiniStorage.Raft.Ordered
import Mathlib.Data.Finset.Card
import Mathlib.Order.Bounds.Basic

namespace MiniStorage.Raft

open RaftNode

variable {cfg : RaftConfig} {n : RaftNode} {log : List LogEntry} {i : Nat}

namespace RaftNode

/-! ## HandleAppendEntries -/

theorem popFrom_zero (log : List LogEntry) : popFrom log 0 = none := by
  have hnil : log.rdropWhile (0 ≤ ·.index) = [] :=
    List.rdropWhile_eq_nil_iff.mpr fun e _ => decide_eq_true (Nat.zero_le _)
  rw [popFrom, hnil]

theorem exists_popFrom (h : log.head? = some {}) (hi : 0 < i) : ∃ rest, popFrom log i = some rest := by
  have hne : log.rdropWhile (i ≤ ·.index) ≠ [] := by
    intro hnil
    have hmem : ({} : LogEntry) ∈ log := List.mem_of_mem_head? h
    have hle := of_decide_eq_true (List.rdropWhile_eq_nil_iff.mp hnil _ hmem)
    exact absurd (Nat.lt_of_lt_of_le hi hle) (Nat.lt_irrefl 0)
  rw [popFrom]
  split
  · next hnil => exact absurd hnil hne
  · exact ⟨_, rfl⟩

theorem handleAppendEntries_sentinel {n' : RaftNode} {leader : Bytes} {req : AppendEntriesRequest}
    (h : n.log = {} :: n.log.tail) (hn : n.handleAppendEntries leader req = some n') : n'.log = {} :: n'.log.tail := by
  have hfollow : (n.follow leader req.term).log = n.log := catchUp_log _
  cases handleAppendEntries_cases hn with
  | stale => exact h
  | reject =>
      rw [reject, hfollow]
      exact h
  | truncate hge hsnap hback e he hne log hlog =>
      obtain ⟨hp, hnil⟩ := popFrom_isPrefix hlog
      exact sentinel_of_isPrefix h hp hnil
  | accept =>
      rw [acceptEntries_log, hfollow]
      exact appendNew_sentinel h _

/-- HandleAppendEntries comes to an end with the sentinel in place, unless a request that is not stale names a term for
the entry before the first, and no snapshot has been taken. -/
theorem append_entries_safe_iff (h : n.log.head? = some {}) (leader : Bytes) (req : AppendEntriesRequest) :
    (∃ n', n.handleAppendEntries leader req = some n' ∧ n'.log.head? = some {}) ↔
      ¬ (n.currentTerm ≤ req.term ∧ n.snapshotLastIndex = 0 ∧ req.prevLogIndex = 0 ∧ req.prevLogTerm ≠ 0) := by
  have hsent : n.log = {} :: n.log.tail := (List.cons_head?_tail h).symm
  have hzero : n.getLogEntry 0 = some {} := by
    rw [getLogEntry, hsent]
    exact List.find?_cons_of_pos rfl
  have hlog : (n.follow leader req.term).log = n.log := catchUp_log _
  have hget (i : Nat) : (n.follow leader req.term).getLogEntry i = n.getLogEntry i := catchUp_getLogEntry _ _
  have hindex : (n.follow leader req.term).snapshotLastIndex = n.snapshotLastIndex := catchUp_snapshotLastIndex _
  constructor
  · rintro ⟨n', hn, -⟩ ⟨hterm, hsnap, hprev, hne⟩
    have hconflict : ((n.follow leader req.term).getLogEntry req.prevLogIndex).any (·.term ≠ req.prevLogTerm) =
      true := by
      rw [hget, hprev, hzero]
      exact decide_eq_true (Ne.symm hne)
    have hback : req.prevLogIndex ≤ (back (n.follow leader req.term).log).index := by
      rw [hprev]
      exact Nat.zero_le _
    have hnone : n.handleAppendEntries leader req = none := by
      rw [handleAppendEntries, if_neg (Nat.not_lt.mpr hterm), checkEntries, if_neg (Nat.not_lt.mpr hback),
        if_pos (by rw [hindex, hsnap]; exact Nat.zero_le _), if_pos hconflict, truncateConflict,
        firstConflict_eq hback hconflict, hprev]
      dsimp only
      rw [popFrom_zero]
      rfl
    rw [hnone] at hn
    cases hn
  · intro hsafe
    have hexists : ∃ n', n.handleAppendEntries leader req = some n' := by
      rcases Nat.lt_or_ge req.term n.currentTerm with hlt | hge
      · exact ⟨_, if_pos hlt⟩
      · refine exists_handleAppendEntries (fun e he hsnap hne => ?_) leader
        apply exists_popFrom h
        by_contra hpos
        have hprev : req.prevLogIndex = 0 := Nat.eq_zero_of_not_pos hpos
        rw [hprev, hzero] at he
        cases he
        exact hsafe ⟨hge, by omega, hprev, Ne.symm hne⟩
    obtain ⟨n', hn⟩ := hexists
    have hsent' := handleAppendEntries_sentinel hsent hn
    exact ⟨n', hn, by rw [hsent']; rfl⟩

theorem append_entries_safe_first :
    ∃ n', ({} : RaftNode).handleAppendEntries [98] ⟨1, [98], 0, 0, [⟨1, 1, [7]⟩], 0⟩ = some n' ∧
      n'.log.head? = some {} :=
  (append_entries_safe_iff rfl [98] ⟨1, [98], 0, 0, [⟨1, 1, [7]⟩], 0⟩).mpr (by decide)

/-- A new node is told that the entry before its first one has term 1: it pops the sentinel. -/
theorem append_entries_pops_sentinel :
    ∃ (n : RaftNode) (req : AppendEntriesRequest), n.log.head? = some {} ∧ Sorted n.log ∧
    n.handleAppendEntries [98] req = none :=
  ⟨{}, ⟨1, [98], 0, 1, [], 0⟩, rfl, List.pairwise_singleton _ _,
    Option.isNone_iff_eq_none.mp (by decide)⟩

/-! ## AdvanceCommitIndex -/

/-- A position past the commit index with an entry of the current term that a majority has, the leader included. -/
structure Committable (cfg : RaftConfig) (n : RaftNode) (m : Nat) : Prop where
  new : n.commitIndex < m
  entry : ∃ e ∈ n.log, e.index = m ∧ e.term = n.currentTerm
  quorum : cfg.peers.length / 2 + 1 ≤
    (cfg.peers.toFinset.filter fun p => p ≠ cfg.nodeId ∧ ∃ k, n.matchIndex p = some k ∧ m ≤ k).card + 1

theorem replicas_eq (hnodup : cfg.peers.Nodup) (n : RaftNode) (m : Nat) : n.replicas cfg m =
    (cfg.peers.toFinset.filter fun p => p ≠ cfg.nodeId ∧ ∃ k, n.matchIndex p = some k ∧ m ≤ k).card + 1 := by
  rw [replicas, RaftConfig.others, List.filter_filter, Nat.add_comm, ← List.toFinset_card_of_nodup (hnodup.filter _),
    List.toFinset_filter]
  congr 2
  ext p
  simp only [Finset.mem_filter, Bool.and_eq_true, decide_eq_true_eq, Option.any_eq_true, ne_eq, and_comm]

theorem committable_iff (hnodup : cfg.peers.Nodup) (hs : Sorted n.log) (m : Nat) :
    Committable cfg n m ↔ n.commitIndex < m ∧ n.commits cfg m = true := by
  have hcommits : n.commits cfg m = true ↔ (∃ e ∈ n.log, e.index = m ∧ e.term = n.currentTerm) ∧
      cfg.majority ≤ n.replicas cfg m := by
    rw [commits, Bool.and_eq_true, decide_eq_true_eq, Option.any_eq_true]
    refine and_congr_left fun _ => ?_
    constructor
    · rintro ⟨e, he, hterm⟩
      obtain ⟨hmem, hindex⟩ := getLogEntry_index he
      exact ⟨e, hmem, hindex, of_decide_eq_true hterm⟩
    · rintro ⟨e, he, rfl, hterm⟩
      exact ⟨e, hs.find_eq he, decide_eq_true hterm⟩
  rw [hcommits, replicas_eq hnodup]
  exact ⟨fun h => ⟨h.new, h.entry, h.quorum⟩, fun h => ⟨h.1, h.2.1, h.2.2⟩⟩

/-- The downward search stops at the greatest position there is, or passes them all. -/
theorem advanceFrom_greatest (cfg : RaftConfig) (n : RaftNode) (k : Nat) :
    (∃ m, IsGreatest {i | n.commitIndex < i ∧ i ≤ k ∧ n.commits cfg i = true} m ∧
      n.advanceFrom cfg k = { n with commitIndex := m }.applyCommitted m) ∨
      (∀ i, n.commitIndex < i → i ≤ k → n.commits cfg i ≠ true) ∧ n.advanceFrom cfg k = n := by
  induction k with
  | zero => exact .inr ⟨fun i hlt hle => by omega, rfl⟩
  | succ k ih =>
      rw [advanceFrom]
      split
      · next hle => exact .inr ⟨fun i hlt hik => by omega, rfl⟩
      · next hlt =>
        split
        · next hk => exact .inl ⟨k + 1, ⟨⟨by omega, le_rfl, hk⟩, fun i hi => hi.2.1⟩, rfl⟩
        · next hk =>
          rcases ih with ⟨m, ⟨⟨hm, hmk, hc⟩, hmax⟩, heq⟩ | ⟨hnone, heq⟩
          · refine .inl ⟨m, ⟨⟨hm, by omega, hc⟩, fun i hi => ?_⟩, heq⟩
            have hne : i ≠ k + 1 := fun h => hk (h ▸ hi.2.2)
            have hik : i ≤ k + 1 := hi.2.1
            exact hmax ⟨hi.1, by omega, hi.2.2⟩
          · refine .inr ⟨fun i hi hik hc => ?_, heq⟩
            have hne : i ≠ k + 1 := fun h => hk (h ▸ hc)
            exact hnone i hi (by omega) hc

/-- AdvanceCommitIndex moves the commit index to the greatest position it may commit and applies up to there, or, where
there is none, does nothing at all. -/
theorem advance_commit_exact (hnodup : cfg.peers.Nodup) (hs : Sorted n.log) :
    ((∃ m, Committable cfg n m) → IsGreatest {m | Committable cfg n m} (n.advanceCommitIndex cfg).commitIndex ∧
      (n.advanceCommitIndex cfg).commitIndex ≤ (n.advanceCommitIndex cfg).lastApplied) ∧
    ((¬ ∃ m, Committable cfg n m) → (n.advanceCommitIndex cfg).commitIndex = n.commitIndex) ∧
    (n.commitIndex ≤ n.lastApplied →
      (n.advanceCommitIndex cfg).commitIndex ≤ (n.advanceCommitIndex cfg).lastApplied) := by
  have hset : {m | Committable cfg n m} =
      {i | n.commitIndex < i ∧ i ≤ (back n.log).index ∧ n.commits cfg i = true} := by
    refine Set.ext fun m => (committable_iff hnodup hs m).trans ?_
    constructor
    · rintro ⟨hnew, hc⟩
      obtain ⟨e, he, rfl, -⟩ := ((committable_iff hnodup hs m).mpr ⟨hnew, hc⟩).entry
      exact ⟨hnew, hs.le_back he, hc⟩
    · rintro ⟨hnew, -, hc⟩
      exact ⟨hnew, hc⟩
  rw [hset]
  rcases advanceFrom_greatest cfg n (back n.log).index with ⟨m, hmax, heq⟩ | ⟨hnone, heq⟩
  · have hcommit : (n.advanceCommitIndex cfg).commitIndex = m := by
      rw [advanceCommitIndex, heq, applyCommitted_eq]
    have happlied : m ≤ (n.advanceCommitIndex cfg).lastApplied := by
      rw [advanceCommitIndex, heq, applyCommitted_eq]
      exact le_max_right _ _
    have hm : Committable cfg n m := by
      have hmem := hmax.1
      rwa [← hset] at hmem
    rw [hcommit]
    exact ⟨fun _ => ⟨hmax, happlied⟩, fun hno => absurd ⟨m, hm⟩ hno, fun _ => happlied⟩
  · have hsame : n.advanceCommitIndex cfg = n := heq
    rw [hsame]
    refine ⟨fun ⟨m, hm⟩ => ?_, fun _ => rfl, fun h => h⟩
    have hmem : m ∈ {m | Committable cfg n m} := hm
    rw [hset] at hmem
    exact absurd hmem.2.2 (hnone m hmem.1 hmem.2.1)

/-- A leader of three in term 2. Both others have its entries up to index 2, which is of the term before, and one has
the entry at 3. -/
def advancing : RaftNode := { ({} : RaftNode) with
  currentTerm := 2
  state := .leader
  log := [{}, ⟨1, 1, [1]⟩, ⟨1, 2, [2]⟩, ⟨2, 3, [3]⟩, ⟨2, 4, [4]⟩]
  matchIndex := fun p => if p = [98] then some 3 else if p = [99] then some 2 else none }

theorem advance_commit_exact_three : 3 ≤ (advancing.advanceCommitIndex ⟨[97], [[97], [98], [99]]⟩).lastApplied := by
  have hthree : Committable ⟨[97], [[97], [98], [99]]⟩ advancing 3 := by
    refine ⟨by decide, ⟨⟨2, 3, [3]⟩, by decide, rfl, rfl⟩, ?_⟩
    rw [← replicas_eq (by decide)]
    decide
  obtain ⟨hmax, happlied⟩ := (advance_commit_exact (by decide) (by decide)).1 ⟨3, hthree⟩
  exact (hmax.2 hthree).trans happlied

/-- Where nothing can be committed, nothing is applied either. -/
theorem advance_commit_leaves_unapplied : ∃ n : RaftNode, n.state = .leader ∧ Sorted n.log ∧
    (n.advanceCommitIndex ⟨[97], [[97], [98], [99]]⟩).lastApplied <
      (n.advanceCommitIndex ⟨[97], [[97], [98], [99]]⟩).commitIndex :=
  ⟨{ advancing with matchIndex := fun _ => none, commitIndex := 1 }, rfl, by decide, by decide⟩

/-! ## HandleRequestVoteResponse -/

/-- Responses to an election, each with the sender it is handed over with. -/
abbrev Responses := List (Bytes × RequestVoteResponse)

def tally (cfg : RaftConfig) (n : RaftNode) (rs : Responses) : RaftNode :=
  rs.foldl (fun n r => n.handleRequestVoteResponse cfg r.2) n

def grants (term : Nat) (r : Bytes × RequestVoteResponse) : Bool := r.2.term = term && r.2.voteGranted

/-- The senders of what grants in a term. -/
def grantors (term : Nat) (rs : Responses) : List Bytes := (rs.filter (grants term)).map Prod.fst

/-- The senders of what is counted: a response of a later term ends the candidacy. -/
def counted (term : Nat) (rs : Responses) : List Bytes := grantors term (rs.takeWhile (·.2.term ≤ term))

/-- The members of the peers list that have granted, and the node itself. -/
def voters (cfg : RaftConfig) (term : Nat) (rs : Responses) : Finset Bytes :=
  insert cfg.nodeId (cfg.peers.toFinset.filter (· ∈ grantors term rs))

variable {rs pre : Responses} {r : Bytes × RequestVoteResponse} {t : Nat}

theorem tally_append (cfg : RaftConfig) (n : RaftNode) (rs : Responses) (r : Bytes × RequestVoteResponse) :
    n.tally cfg (rs ++ [r]) = (n.tally cfg rs).handleRequestVoteResponse cfg r.2 := by
  rw [tally, tally, List.foldl_append]
  rfl

theorem grantors_append (t : Nat) (rs rs' : Responses) : grantors t (rs ++ rs') = grantors t rs ++ grantors t rs' := by
  rw [grantors, List.filter_append, List.map_append]
  rfl

theorem grantors_one (t : Nat) (r : Bytes × RequestVoteResponse) :
    grantors t [r] = if grants t r = true then [r.1] else [] := by
  rw [grantors, List.filter_singleton]
  cases grants t r <;> rfl

theorem handleRequestVoteResponse_candidate (hstate : n.state = .candidate) (r : Bytes × RequestVoteResponse) :
    n.handleRequestVoteResponse cfg r.2 =
      if n.currentTerm < r.2.term then n.adoptTerm r.2.term
      else if grants n.currentTerm r = true then
        if cfg.majority ≤ n.votesReceived + 1 then { n with votesReceived := n.votesReceived + 1 }.becomeLeader cfg
        else { n with votesReceived := n.votesReceived + 1 }
      else n := by
  rw [handleRequestVoteResponse, grants]
  by_cases hlt : n.currentTerm < r.2.term
  · rw [if_pos hlt, if_pos hlt]
  · rw [if_neg hlt, if_neg hlt, if_neg (not_not.mpr hstate)]
    rcases Nat.lt_or_eq_of_le (Nat.not_lt.mp hlt) with hold | heq
    · rw [if_pos hold, decide_eq_false hold.ne]
      rfl
    · rw [if_neg heq.ge.not_gt, decide_eq_true heq, Bool.true_and]

theorem handleRequestVoteResponse_other (hstate : n.state ≠ .candidate) (resp : RequestVoteResponse) :
    (n.handleRequestVoteResponse cfg resp).state = n.state ∨
      (n.handleRequestVoteResponse cfg resp).state = .follower := by
  have ho := handleRequestVoteResponse_cases cfg n resp
  generalize n.handleRequestVoteResponse cfg resp = m at ho ⊢
  cases ho with
  | adopt => exact .inr rfl
  | ignore => exact .inl rfl
  | count ht hc | win ht hc => exact absurd hc hstate

/-- Too few votes to win. -/
def Few (cfg : RaftConfig) (voters : List Bytes) : Prop := voters = [] ∨ voters.length < cfg.peers.length / 2

theorem Few.of_prefix {xs ys : List Bytes} (h : Few cfg ys) (hp : xs <+: ys) : Few cfg xs := by
  rcases h with rfl | hlt
  · exact .inl (List.prefix_nil.mp hp)
  · exact .inr (hp.length_le.trans_lt hlt)

theorem tally_few (hstate : n.state = .candidate) (hone : n.votesReceived = 1) (h : ∀ r ∈ rs, r.2.term ≤ n.currentTerm)
    (hfew : Few cfg (grantors n.currentTerm rs)) :
    n.tally cfg rs = { n with votesReceived := 1 + (grantors n.currentTerm rs).length } := by
  induction rs using List.reverseRecOn with
  | nil => rw [← hone]; rfl
  | append_singleton rs r ih =>
      have hall := List.forall_mem_append.mp h
      rw [grantors_append] at hfew ⊢
      have ih := ih hall.1 (hfew.of_prefix (List.prefix_append _ _))
      have hterm : ¬ n.currentTerm < r.2.term := Nat.not_lt.mpr (hall.2 r (List.mem_singleton_self r))
      rw [tally_append, ih, handleRequestVoteResponse_candidate
        (n := { n with votesReceived := 1 + (grantors n.currentTerm rs).length }) hstate, grantors_one]
      dsimp only
      rw [if_neg hterm]
      by_cases hg : grants n.currentTerm r = true
      · rw [grantors_one, if_pos hg] at hfew
        have hlen : (grantors n.currentTerm rs).length + 1 < cfg.peers.length / 2 := by
          rcases hfew with hnil | hlt
          · exact absurd hnil (by simp)
          · rwa [List.length_append, List.length_singleton] at hlt
        rw [if_pos hg, if_pos hg, if_neg (by rw [RaftConfig.majority]; omega), List.length_append,
          List.length_singleton, Nat.add_assoc]
      · rw [if_neg hg, if_neg hg, List.append_nil]

theorem tally_cases (hstate : n.state = .candidate) (hone : n.votesReceived = 1) (rs : Responses) :
    (n.tally cfg rs).state ≠ .candidate ∨
      (∀ r ∈ rs, r.2.term ≤ n.currentTerm) ∧ Few cfg (grantors n.currentTerm rs) := by
  induction rs using List.reverseRecOn with
  | nil => exact .inr ⟨fun _ h => absurd h List.not_mem_nil, .inl rfl⟩
  | append_singleton rs r ih =>
      rw [tally_append]
      rcases ih with hother | ⟨hall, hfew⟩
      · refine .inl ?_
        rcases @handleRequestVoteResponse_other cfg _ hother r.2 with h | h
        · rw [h]; exact hother
        · rw [h]; simp
      · rw [tally_few hstate hone hall hfew, handleRequestVoteResponse_candidate
          (n := { n with votesReceived := 1 + (grantors n.currentTerm rs).length }) hstate, grantors_append,
            grantors_one]
        dsimp only
        split
        · exact .inl (by simp [adoptTerm, persistState])
        · next hterm =>
          have hall' : ∀ r' ∈ rs ++ [r], r'.2.term ≤ n.currentTerm :=
            List.forall_mem_append.mpr ⟨hall, fun r' hr' => by
              rw [List.mem_singleton.mp hr']
              exact Nat.not_lt.mp hterm⟩
          split
          · split
            · exact .inl (by rw [becomeLeader_eq]; simp)
            · next hmaj =>
              rw [RaftConfig.majority] at hmaj
              refine .inr ⟨hall', .inr ?_⟩
              rw [List.length_append, List.length_singleton]
              omega
          · rw [List.append_nil]
            exact .inr ⟨hall', hfew⟩

theorem tally_wins (hstate : n.state = .candidate) (hone : n.votesReceived = 1) (pre : Responses)
    (r : Bytes × RequestVoteResponse) : (n.tally cfg pre).state ≠ .leader ∧ (n.tally cfg (pre ++ [r])).state = .leader ↔
      (∀ r' ∈ pre ++ [r], r'.2.term ≤ n.currentTerm) ∧ Few cfg (grantors n.currentTerm pre) ∧
        grants n.currentTerm r = true ∧ cfg.peers.length / 2 ≤ (grantors n.currentTerm pre).length + 1 := by
  have hlast (hall : ∀ r' ∈ pre, r'.2.term ≤ n.currentTerm) (hfew : Few cfg (grantors n.currentTerm pre)) :
      (n.tally cfg (pre ++ [r])).state = .leader ↔ r.2.term ≤ n.currentTerm ∧ grants n.currentTerm r = true ∧
        cfg.peers.length / 2 ≤ (grantors n.currentTerm pre).length + 1 := by
    rw [tally_append, tally_few hstate hone hall hfew, handleRequestVoteResponse_candidate
      (n := { n with votesReceived := 1 + (grantors n.currentTerm pre).length }) hstate]
    have hcand : RaftState.candidate ≠ RaftState.leader := by decide
    have hfollow : RaftState.follower ≠ RaftState.leader := by decide
    dsimp only
    split
    · next hlt => simp [adoptTerm, persistState, Nat.not_le.mpr hlt]
    · next hge =>
      split
      · next hg =>
        rw [RaftConfig.majority]
        split
        · next hmaj =>
          rw [becomeLeader_eq]
          exact iff_of_true rfl ⟨Nat.not_lt.mp hge, hg, by omega⟩
        · next hmaj => exact iff_of_false (by simp [hstate]) fun h => hmaj (by omega)
      · next hg => exact iff_of_false (by simp [hstate]) fun h => hg h.2.1
  constructor
  · rintro ⟨hne, hwin⟩
    rcases @tally_cases cfg n hstate hone pre with hother | ⟨hall, hfew⟩
    · rw [tally_append] at hwin
      rcases @handleRequestVoteResponse_other cfg _ hother r.2 with h | h
      · exact absurd (h.symm.trans hwin) hne
      · rw [h] at hwin
        cases hwin
    · obtain ⟨hterm, hg, hmaj⟩ := (hlast hall hfew).mp hwin
      refine ⟨List.forall_mem_append.mpr ⟨hall, fun r' hr' => ?_⟩, hfew, hg, hmaj⟩
      rw [List.mem_singleton.mp hr']
      exact hterm
  · rintro ⟨hall, hfew, hg, hmaj⟩
    obtain ⟨hpre, hr⟩ := List.forall_mem_append.mp hall
    refine ⟨?_, (hlast hpre hfew).mpr ⟨hr r (List.mem_singleton_self r), hg, hmaj⟩⟩
    rw [tally_few hstate hone hpre hfew, hstate]
    decide

/-- So many votes suffice only if nobody is among them twice, nobody from outside, and the node itself neither. -/
theorem card_voters_iff (P : Finset Bytes) (s : Bytes) (xs : List Bytes) :
    xs.length + 1 ≤ (insert s (P.filter (· ∈ xs))).card ↔ xs.Nodup ∧ ∀ x ∈ xs, x ∈ P ∧ x ≠ s := by
  constructor
  · intro hcard
    have hsub : (P.filter (· ∈ xs)).erase s ⊆ xs.toFinset := by
      intro x hx
      exact List.mem_toFinset.mpr (Finset.mem_filter.mp (Finset.mem_of_mem_erase hx)).2
    have hle : xs.length ≤ ((P.filter (· ∈ xs)).erase s).card := by
      have hpred := Finset.pred_card_le_card_erase (s := insert s (P.filter (· ∈ xs))) (a := s)
      rw [Finset.erase_insert_eq_erase] at hpred
      omega
    have heq : (P.filter (· ∈ xs)).erase s = xs.toFinset :=
      Finset.eq_of_subset_of_card_le hsub ((List.toFinset_card_le xs).trans hle)
    constructor
    · have hdedup : xs.dedup.length = xs.length := by
        rw [← List.card_toFinset]
        exact le_antisymm (List.toFinset_card_le xs) (heq ▸ hle)
      exact List.dedup_eq_self.mp ((List.dedup_sublist xs).eq_of_length hdedup)
    · intro x hx
      rw [← List.mem_toFinset, ← heq] at hx
      exact ⟨(Finset.mem_filter.mp (Finset.mem_of_mem_erase hx)).1, Finset.ne_of_mem_erase hx⟩
  · rintro ⟨hnodup, hall⟩
    have heq : P.filter (· ∈ xs) = xs.toFinset := by
      ext x
      rw [Finset.mem_filter, List.mem_toFinset]
      exact ⟨fun h => h.2, fun h => ⟨(hall x h).1, h⟩⟩
    have hs : s ∉ xs.toFinset := fun hs => (hall s (List.mem_toFinset.mp hs)).2 rfl
    rw [heq, Finset.card_insert_of_notMem hs, List.toFinset_card_of_nodup hnodup]

theorem exists_vote (t : Nat) {k : Nat} (h : k < (grantors t rs).length) :
    ∃ pre r, pre ++ [r] <+: rs ∧ grants t r = true ∧ (grantors t pre).length = k := by
  induction rs using List.reverseRecOn with
  | nil => cases h
  | append_singleton rs r ih =>
      by_cases hlt : k < (grantors t rs).length
      · obtain ⟨pre, r', hp, hg, hk⟩ := ih hlt
        exact ⟨pre, r', hp.trans (List.prefix_append _ _), hg, hk⟩
      · rw [grantors_append, grantors_one, List.length_append] at h
        have hg : grants t r = true := by
          by_contra hno
          rw [if_neg hno] at h
          exact hlt h
        rw [if_pos hg, List.length_singleton] at h
        exact ⟨rs, r, List.prefix_rfl, hg, by omega⟩

theorem counted_eq {rs' : Responses} (hp : rs' <+: rs) (h : ∀ r ∈ rs', r.2.term ≤ t) :
    grantors t rs' <+: counted t rs := by
  obtain ⟨rest, rfl⟩ := hp
  rw [counted, List.takeWhile_append_of_pos (fun r hr => decide_eq_true (h r hr)), grantors_append]
  exact List.prefix_append _ _

/-- A candidacy ends in leadership by a majority of different peers exactly if, unless the votes counted are too few,
those that suffice are from different members of the peers list other than the node. -/
theorem quorum_distinct_iff (cfg : RaftConfig) (n : RaftNode) (rs : Responses) :
    (∀ pre r, pre ++ [r] <+: rs → ((n.becomeCandidate cfg).tally cfg pre).state ≠ .leader →
      ((n.becomeCandidate cfg).tally cfg (pre ++ [r])).state = .leader →
      cfg.peers.length / 2 + 1 ≤ (voters cfg (n.currentTerm + 1) (pre ++ [r])).card) ↔
    (counted (n.currentTerm + 1) rs).length < cfg.peers.length / 2 ∨
      ((counted (n.currentTerm + 1) rs).take (cfg.peers.length / 2)).Nodup ∧
        ∀ s ∈ (counted (n.currentTerm + 1) rs).take (cfg.peers.length / 2), s ∈ cfg.others := by
  have hwins (pre : Responses) (r : Bytes × RequestVoteResponse) :
      ((n.becomeCandidate cfg).tally cfg pre).state ≠ .leader ∧
        ((n.becomeCandidate cfg).tally cfg (pre ++ [r])).state = .leader ↔
      (∀ r' ∈ pre ++ [r], r'.2.term ≤ n.currentTerm + 1) ∧ Few cfg (grantors (n.currentTerm + 1) pre) ∧
        grants (n.currentTerm + 1) r = true ∧
          cfg.peers.length / 2 ≤ (grantors (n.currentTerm + 1) pre).length + 1 := tally_wins rfl rfl pre r
  have hcard (xs : List Bytes) (hlen : xs.length = cfg.peers.length / 2) :
      cfg.peers.length / 2 + 1 ≤ (insert cfg.nodeId (cfg.peers.toFinset.filter (· ∈ xs))).card ↔
        xs.Nodup ∧ ∀ s ∈ xs, s ∈ cfg.others := by
    rw [← hlen, card_voters_iff]
    refine and_congr_right fun _ => forall₂_congr fun s _ => ?_
    rw [RaftConfig.others, List.mem_filter, List.mem_toFinset, decide_eq_true_eq]
  rcases Nat.eq_zero_or_pos (cfg.peers.length / 2) with hzero | hpos
  · rw [hzero, List.take_zero]
    refine iff_of_true (fun pre r _ _ _ => ?_) (.inr ⟨List.nodup_nil, fun s hs => absurd hs List.not_mem_nil⟩)
    exact Finset.card_pos.mpr (Finset.insert_nonempty _ _)
  -- The votes up to the one that wins are the first of those counted.
  have htake {pre : Responses} {r : Bytes × RequestVoteResponse} (hp : pre ++ [r] <+: rs)
      (hall : ∀ r' ∈ pre ++ [r], r'.2.term ≤ n.currentTerm + 1)
      (hlen : (grantors (n.currentTerm + 1) (pre ++ [r])).length = cfg.peers.length / 2) :
      grantors (n.currentTerm + 1) (pre ++ [r]) = (counted (n.currentTerm + 1) rs).take (cfg.peers.length / 2) := by
    rw [← hlen]
    exact List.prefix_iff_eq_take.mp (counted_eq hp hall)
  have hlast {pre : Responses} {r : Bytes × RequestVoteResponse} (hg : grants (n.currentTerm + 1) r = true) :
      (grantors (n.currentTerm + 1) (pre ++ [r])).length = (grantors (n.currentTerm + 1) pre).length + 1 := by
    rw [grantors_append, grantors_one, if_pos hg, List.length_append, List.length_singleton]
  constructor
  · intro h
    rcases Nat.lt_or_ge (counted (n.currentTerm + 1) rs).length (cfg.peers.length / 2) with hlt | hge
    · exact .inl hlt
    · obtain ⟨pre, r, hp, hg, hk⟩ := exists_vote (n.currentTerm + 1)
        (lt_of_lt_of_le (Nat.sub_lt hpos Nat.one_pos) hge)
      have hall : ∀ r' ∈ pre ++ [r], r'.2.term ≤ n.currentTerm + 1 := fun r' hr' =>
        of_decide_eq_true (List.mem_takeWhile_imp
          (p := fun r : Bytes × RequestVoteResponse => decide (r.2.term ≤ n.currentTerm + 1))
          (hp.subset hr'))
      have hprefix := hp.trans (List.takeWhile_prefix _)
      have hlen : (grantors (n.currentTerm + 1) (pre ++ [r])).length = cfg.peers.length / 2 := by
        rw [hlast hg]
        omega
      obtain ⟨hne, hwin⟩ := (hwins pre r).mpr ⟨hall, .inr (hk ▸ Nat.sub_lt hpos Nat.one_pos), hg, by omega⟩
      have hvoters := h pre r hprefix hne hwin
      rw [voters, hcard _ hlen, htake hprefix hall hlen] at hvoters
      exact .inr hvoters
  · intro h pre r hp hne hwin
    obtain ⟨hall, hfew, hg, hmaj⟩ := (hwins pre r).mp ⟨hne, hwin⟩
    have hlen : (grantors (n.currentTerm + 1) (pre ++ [r])).length = cfg.peers.length / 2 := by
      rw [hlast hg]
      rcases hfew with hnil | hlt
      · rw [hnil, List.length_nil] at hmaj ⊢
        omega
      · exact Nat.le_antisymm hlt hmaj
    rw [voters, hcard _ hlen, htake hp hall hlen]
    rcases h with hlt | h
    · have hle := (counted_eq hp hall).length_le
      omega
    · exact h

/-- Of five nodes two are enough, if the vote of one of them is delivered twice. -/
theorem quorum_of_repeated_vote : ∃ (cfg : RaftConfig) (rs : Responses),
    ((({} : RaftNode).becomeCandidate cfg).tally cfg rs).state = .leader ∧
    (voters cfg 1 rs).card < cfg.peers.length / 2 + 1 :=
  ⟨⟨[97], [[97], [98], [99], [100], [101]]⟩, [([98], ⟨1, true⟩), ([98], ⟨1, true⟩)], by decide, by decide⟩

end RaftNode

end MiniStorage.Raft
