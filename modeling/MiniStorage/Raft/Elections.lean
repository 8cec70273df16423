import MiniStorage.Raft.Intact
import MiniStorage.Replication.Quorum

namespace MiniStorage.Raft

open Replication

/-- Every vote ever cast: by whom, in which term, for whom. -/
abbrev Ballots := Bytes → Nat → Option Bytes

def Ballots.Le (g g' : Ballots) : Prop := ∀ w t c, g w t = some c → g' w t = some c

def Ballots.cast (g : Ballots) (w : Bytes) (t : Nat) (c : Bytes) : Ballots :=
  Function.update g w (Function.update (g w) t (some c))

/-- The vote of one node for another in one term on its way: asked for, or given. -/
def isBallot (c w : Bytes) (t : Nat) (p : Packet) : Bool :=
  match p.msg with
  | .requestVote req => p.src = c ∧ p.dst = w ∧ req.term = t
  | .requestVoteResponse resp => p.src = w ∧ p.dst = c ∧ resp.term = t ∧ resp.voteGranted = true
  | _ => false

def RaftNode.vote (n : RaftNode) : Option Bytes := if n.votedFor = [] then none else some n.votedFor

/-- The ballots with the vote a node holds now. -/
def Ballots.observe (g : Ballots) (w : Bytes) (n : RaftNode) : Ballots :=
  if n.votedFor = [] then g else g.cast w n.currentTerm n.votedFor

/-- The nodes whose votes for a candidate have been counted or lost. -/
def confirmed (peers : List Bytes) (g : Ballots) (net : List Packet) (id : Bytes) (t : Nat) :
    Finset Bytes :=
  peers.toFinset.filter fun w => w ≠ id ∧ g w t = some id ∧ net.countP (isBallot id w t) = 0

/-- A term a node's timer thread will not ask for votes in again. -/
def Before (p : Process) (t : Nat) : Prop :=
  t ≤ p.node.currentTerm ∧ (p.timer = .election → t < p.node.currentTerm)

/-- What the votes say about one node's role. -/
structure Seat (peers : List Bytes) (g : Ballots) (net : List Packet) (id : Bytes) (p : Process) : Prop where
  voted : g id p.node.currentTerm = p.node.vote
  future : ∀ t, p.node.currentTerm < t → g id t = none
  self : p.node.state = .candidate → p.node.votedFor = id ∧ id ∈ peers
  few : p.node.state = .candidate → p.node.votesReceived = 1 ∨ p.node.votesReceived < peers.length / 2 + 1
  fresh : p.timer = .election → p.node.state = .candidate → p.node.votesReceived ≤ 1
  counted : p.node.state = .candidate →
    p.node.votesReceived ≤ 1 + (confirmed peers g net id p.node.currentTerm).card
  leader : p.node.state = .leader →
    ∃ S, Majority peers S ∧ ∀ w ∈ S, g w p.node.currentTerm = some id
  leadership : p.timer = .leadership → p.node.state = .candidate ∧ peers.length ≤ 1
  sending : ∀ q ∈ p.node.sending, id ∈ peers ∧ q ∈ peers ∧ id ≠ q

/-- What a packet on its way says about votes. -/
def Sealed (peers : List Bytes) (g : Ballots) (procs : Bytes → Process) (p : Packet) : Prop :=
  p.src ∈ peers ∧ p.dst ∈ peers ∧ p.src ≠ p.dst ∧
    match p.msg with
    | .requestVote req => req.candidateId = p.src ∧ Before (procs p.src) req.term
    | .requestVoteResponse resp =>
        resp.voteGranted = true → g p.src resp.term = some p.dst ∧ Before (procs p.dst) resp.term
    | _ => True

structure Elect (peers : List Bytes) (g : Ballots) (c : Cluster) : Prop where
  intact : ∀ id, (c.node id).Intact
  seat : ∀ id, Seat peers g c.net id (c.procs id)
  sealed : ∀ p ∈ c.net, Sealed peers g c.procs p
  once : ∀ x w t, c.net.countP (isBallot x w t) ≤ 1

variable {peers : List Bytes} {g g' : Ballots} {c : Cluster} {net net' : List Packet} {id : Bytes}
  {p p' : Process} {n m m' : RaftNode}

theorem Ballots.Le.refl (g : Ballots) : g.Le g := fun _ _ _ h => h

theorem Ballots.cast_of_ne {w x v : Bytes} {t u : Nat} (h : v ≠ w ∨ u ≠ t) :
    g.cast w t x v u = g v u := by
  rcases h with h | h
  · simp [Ballots.cast, h]
  · by_cases hv : v = w
    · subst v; simp [Ballots.cast, h]
    · simp [Ballots.cast, hv]

theorem Ballots.cast_le {w x : Bytes} {t : Nat} (h : g w t = none ∨ g w t = some x) :
    g.Le (g.cast w t x) := by
  intro v u y hv
  by_cases hw : v = w
  · subst v
    by_cases hu : u = t
    · subst u
      rcases h with h | h
      · rw [h] at hv; cases hv
      · simpa [Ballots.cast, h] using hv
    · simpa [Ballots.cast, hu] using hv
  · simpa [Ballots.cast, hw] using hv

theorem confirmed_mono (hg : g.Le g') {t : Nat}
    (hnet : ∀ w, net'.countP (isBallot id w t) ≤ net.countP (isBallot id w t)) :
    confirmed peers g net id t ⊆ confirmed peers g' net' id t := by
  intro w hw
  simp only [confirmed, Finset.mem_filter] at hw ⊢
  exact ⟨hw.1, hw.2.1, hg _ _ _ hw.2.2.1, Nat.le_zero.mp (hw.2.2.2 ▸ hnet w)⟩

theorem Seat.mono (h : Seat peers g net id p) (hg : g.Le g') (hid : g' id = g id)
    (hnet : ∀ w t, net'.countP (isBallot id w t) ≤ net.countP (isBallot id w t)) :
    Seat peers g' net' id p :=
  { h with
    voted := by rw [hid]; exact h.voted
    future := by rw [hid]; exact h.future
    counted := fun hc => (h.counted hc).trans
      (Nat.add_le_add_left (Finset.card_le_card (confirmed_mono hg fun w => hnet w _)) 1)
    leader := fun hl => (h.leader hl).imp fun _ hS => ⟨hS.1, fun w hw => hg _ _ _ (hS.2 w hw)⟩ }

theorem Sealed.mono {procs procs' : Bytes → Process} {q : Packet} (h : Sealed peers g procs q) (hg : g.Le g')
    (hp : ∀ w t, Before (procs w) t → Before (procs' w) t) : Sealed peers g' procs' q := by
  obtain ⟨hsrc, hdst, hne, hm⟩ := h
  refine ⟨hsrc, hdst, hne, ?_⟩
  split at hm
  · exact ⟨hm.1, hp _ _ hm.2⟩
  · exact fun hv => ⟨hg _ _ _ (hm hv).1, hp _ _ (hm hv).2⟩
  · trivial

theorem Elect.put (h : Elect peers g c) (hg : g.Le g') (hg' : ∀ w, w ≠ id → g' w = g w)
    (hi : p'.node.Intact) (hseat : Seat peers g' net' id p')
    (hbefore : ∀ t, Before (c.procs id) t → Before p' t)
    (hnet : ∀ q ∈ net', q ∈ c.net ∨ Sealed peers g' (Function.update c.procs id p') q)
    (honce : ∀ x w t, net'.countP (isBallot x w t) ≤ 1)
    (hfew : ∀ x w t, x ≠ id → net'.countP (isBallot x w t) ≤ c.net.countP (isBallot x w t)) :
    Elect peers g' (c.put id p' net') := by
  refine ⟨?_, ?_, fun q hq => ?_, honce⟩
  · exact put_cases (P := fun _ p => p.node.Intact) c net' hi fun w _ => h.intact w
  · exact put_cases (P := Seat peers g' net') c net' hseat fun w hw =>
      (h.seat w).mono hg (hg' w hw) fun v t => hfew w v t hw
  · rcases hnet q hq with hq | hq
    · exact (h.sealed q hq).mono hg (put_cases (P := fun w p => ∀ t, Before (c.procs w) t → Before p t) c net' hbefore
        fun w _ t ht => ht)
    · exact hq

/-- A change of a node that casts and counts no vote: the term is kept with the
vote or it grows and the vote is gone, and a candidacy or a leadership is kept
with its term or given up. -/
structure Steady (peers : List Bytes) (id : Bytes) (n m : RaftNode) : Prop where
  vote : m.currentTerm = n.currentTerm ∧ m.votedFor = n.votedFor ∨ n.currentTerm < m.currentTerm ∧ m.votedFor = []
  role : m.state = .follower ∨
    m.currentTerm = n.currentTerm ∧ m.state = n.state ∧ m.votesReceived = n.votesReceived
  sending : ∀ q ∈ m.sending, q ∈ n.sending ∨ id ∈ peers ∧ q ∈ peers ∧ id ≠ q

theorem Steady.refl (n : RaftNode) : Steady peers id n n :=
  ⟨.inl ⟨rfl, rfl⟩, .inr ⟨rfl, rfl, rfl⟩, fun _ h => .inl h⟩

theorem Steady.congr (h : Steady peers id n m) (hterm : m'.currentTerm = m.currentTerm)
    (hvote : m'.votedFor = m.votedFor) (hstate : m'.state = m.state)
    (hvotes : m'.votesReceived = m.votesReceived) (hsend : m'.sending = m.sending) :
    Steady peers id n m' := by
  refine ⟨?_, ?_, ?_⟩
  · rw [hterm, hvote]; exact h.vote
  · rw [hterm, hstate, hvotes]; exact h.role
  · rw [hsend]; exact h.sending

theorem Steady.adoptTerm {t : Nat} (ht : n.currentTerm < t) : Steady peers id n (n.adoptTerm t) :=
  ⟨.inr ⟨ht, rfl⟩, .inl rfl, fun _ h => .inl h⟩

theorem Steady.catchUp (n : RaftNode) (t : Nat) : Steady peers id n (n.catchUp t) := by
  rcases Nat.lt_or_ge n.currentTerm t with ht | ht
  · rw [RaftNode.catchUp_of_lt ht]; exact .adoptTerm ht
  · rw [RaftNode.catchUp_of_le ht]; exact .refl n

theorem Steady.follow (n : RaftNode) (leader : Bytes) (t : Nat) : Steady peers id n (n.follow leader t) :=
  { Steady.catchUp n t with role := .inl rfl }

theorem Steady.advanceCommitIndex (h : Steady peers id n m) (cfg : RaftConfig) :
    Steady peers id n (m.advanceCommitIndex cfg) := by
  obtain ⟨i, j, u, he⟩ := RaftNode.advanceCommitIndex_shape cfg m
  rw [he]
  exact h.congr rfl rfl rfl rfl rfl

theorem Steady.sendHeartbeats (n : RaftNode) (hid : id ∈ peers) :
    Steady peers id n (n.sendHeartbeats ⟨id, peers⟩) := by
  rw [RaftNode.sendHeartbeats]
  split
  · refine ⟨.inl ⟨rfl, rfl⟩, .inr ⟨rfl, rfl, rfl⟩, fun q hq => .inr ?_⟩
    obtain ⟨hq, hne⟩ := List.mem_filter.mp hq
    exact ⟨hid, hq, Ne.symm (by simpa using hne)⟩
  · exact .refl n

theorem Steady.acceptEntries (n : RaftNode) (leader : Bytes) (req : AppendEntriesRequest) :
    Steady peers id n ((n.follow leader req.term).acceptEntries req) := by
  obtain ⟨i, j, u, he⟩ := RaftNode.followCommit_shape ((n.follow leader req.term).storeEntries req.entries)
    req.leaderCommit
  rw [RaftNode.acceptEntries, he]
  exact (Steady.follow n leader req.term).congr rfl rfl rfl rfl rfl

theorem Steady.handleAppendEntries {leader : Bytes} {req : AppendEntriesRequest}
    (h : n.handleAppendEntries leader req = some m) : Steady peers id n m := by
  cases RaftNode.handleAppendEntries_cases h with
  | stale => exact (Steady.refl n).congr rfl rfl rfl rfl rfl
  | reject | truncate => exact (Steady.follow n leader req.term).congr rfl rfl rfl rfl rfl
  | accept => exact .acceptEntries n leader req

theorem Steady.handleInstallSnapshot (n : RaftNode) (req : InstallSnapshotRequest) :
    Steady peers id n (n.handleInstallSnapshot req.leaderId req).1 := by
  have hf : Steady peers id n (n.follow req.leaderId req.term) := .follow n req.leaderId req.term
  have ho := RaftNode.handleInstallSnapshot_cases n req.leaderId req
  generalize n.handleInstallSnapshot req.leaderId req = r at ho ⊢
  cases ho with
  | stale => exact .refl n
  | skip => exact hf
  | install => exact hf.congr rfl rfl rfl rfl rfl

theorem Steady.handleAppendEntriesResponse (cfg : RaftConfig) (n : RaftNode) (peer : Bytes)
    (resp : AppendEntriesResponse) : Steady peers id n (n.handleAppendEntriesResponse cfg peer resp) := by
  have ho := RaftNode.handleAppendEntriesResponse_cases cfg n peer resp
  generalize n.handleAppendEntriesResponse cfg peer resp = r at ho ⊢
  cases ho with
  | adopt h => exact .adoptTerm h
  | ignore => exact .refl n
  | matched =>
      apply Steady.advanceCommitIndex
      exact (Steady.refl n).congr rfl rfl rfl rfl rfl
  | retry => exact (Steady.refl n).congr rfl rfl rfl rfl rfl

theorem Steady.restart (h : n.Intact) (hs : Steady peers id m n) :
    Steady peers id m (Process.restart n).node := by
  obtain ⟨ht, hv, -, -⟩ := h.restart
  refine ⟨?_, .inl (RaftNode.restart_state n), ?_⟩
  · rw [ht, hv]; exact hs.vote
  · rw [RaftNode.restart_sending]; simp

theorem Seat.steady (h : Seat peers g net id p) (hs : Steady peers id p.node p'.node)
    (htimer : p'.timer = .election → p.timer = .election)
    (hlead : p'.timer = .leadership → p'.node.state = .candidate ∧ peers.length ≤ 1)
    (hnet : ∀ w t, net'.countP (isBallot id w t) ≤ net.countP (isBallot id w t)) :
    Seat peers g net' id p' := by
  have hkept (hr : p'.node.state ≠ .follower) : p'.node.currentTerm = p.node.currentTerm ∧
      p'.node.votedFor = p.node.votedFor ∧ p'.node.state = p.node.state ∧
      p'.node.votesReceived = p.node.votesReceived := by
    obtain ⟨ht, hst, hv⟩ := hs.role.resolve_left hr
    obtain ⟨-, hvote⟩ := hs.vote.resolve_right fun hv => by omega
    exact ⟨ht, hvote, hst, hv⟩
  refine ⟨?_, fun t ht => ?_, fun hc => ?_, fun hc => ?_, fun he hc => ?_, fun hc => ?_, fun hl => ?_, hlead,
    fun q hq => (hs.sending q hq).elim (h.sending q) fun hq => hq⟩
  · rcases hs.vote with ⟨ht, hv⟩ | ⟨ht, hv⟩
    · rw [ht, h.voted, RaftNode.vote, RaftNode.vote, hv]
    · rw [h.future _ ht, RaftNode.vote, if_pos hv]
  · refine h.future t ?_
    rcases hs.vote with ⟨he, -⟩ | ⟨he, -⟩ <;> omega
  · obtain ⟨-, hv, hst, -⟩ := hkept (by rw [hc]; simp)
    rw [hv]
    exact h.self (hst ▸ hc)
  · obtain ⟨-, -, hst, hn⟩ := hkept (by rw [hc]; simp)
    rw [hn]
    exact h.few (hst ▸ hc)
  · obtain ⟨-, -, hst, hn⟩ := hkept (by rw [hc]; simp)
    rw [hn]
    exact h.fresh (htimer he) (hst ▸ hc)
  · obtain ⟨ht, -, hst, hn⟩ := hkept (by rw [hc]; simp)
    rw [ht, hn]
    exact (h.counted (hst ▸ hc)).trans (Nat.add_le_add_left
      (Finset.card_le_card (confirmed_mono (.refl g) fun w => hnet w _)) 1)
  · obtain ⟨ht, -, hst, -⟩ := hkept (by rw [hl]; simp)
    rw [ht]
    exact h.leader (hst ▸ hl)

/-- Ballots leave the net at most, and what is new in it is wired and no ballot. -/
structure Calm (peers : List Bytes) (net net' : List Packet) : Prop where
  wired : ∀ q ∈ net', q ∈ net ∨ q.src ∈ peers ∧ q.dst ∈ peers ∧ q.src ≠ q.dst ∧ ∀ x w t, isBallot x w t q = false
  few : ∀ x w t, net'.countP (isBallot x w t) ≤ net.countP (isBallot x w t)

theorem Calm.refl (net : List Packet) : Calm peers net net := ⟨fun _ h => .inl h, fun _ _ _ => le_rfl⟩

theorem Calm.erase (net : List Packet) (q : Packet) : Calm peers net (net.erase q) :=
  ⟨fun _ h => .inl (List.mem_of_mem_erase h), fun _ _ _ => List.Sublist.countP_le (List.erase_sublist)⟩

theorem Calm.cons (h : Calm peers net net') {q : Packet} (hsrc : q.src ∈ peers) (hdst : q.dst ∈ peers)
    (hne : q.src ≠ q.dst) (hq : ∀ x w t, isBallot x w t q = false) : Calm peers net (q :: net') := by
  refine ⟨fun r hr => ?_, fun x w t => ?_⟩
  · rcases List.mem_cons.mp hr with rfl | hr
    · exact .inr ⟨hsrc, hdst, hne, hq⟩
    · exact h.wired r hr
  · rw [List.countP_cons_of_neg (by simp [hq])]
    exact h.few x w t

theorem sealed_of_not_ballot {procs : Bytes → Process} {q : Packet} (hsrc : q.src ∈ peers)
    (hdst : q.dst ∈ peers) (hne : q.src ≠ q.dst) (hq : ∀ x w t, isBallot x w t q = false) :
    Sealed peers g procs q := by
  obtain ⟨src, dst, msg⟩ := q
  refine ⟨hsrc, hdst, hne, ?_⟩
  cases msg with
  | requestVote req => simpa [isBallot] using hq src dst req.term
  | requestVoteResponse resp => exact fun hv => absurd (hq dst src resp.term) (by simp [isBallot, hv])
  | _ => trivial

theorem Elect.steady (h : Elect peers g c) (hi : p'.node.Intact)
    (hs : Steady peers id (c.node id) p'.node) (htimer : p'.timer = .election → (c.procs id).timer = .election)
    (hlead : p'.timer = .leadership → p'.node.state = .candidate ∧ peers.length ≤ 1)
    (hnet : Calm peers c.net net') : Elect peers g (c.put id p' net') := by
  refine h.put (.refl g) (fun _ _ => rfl) hi ((h.seat id).steady hs htimer hlead fun w t => hnet.few id w t)
    (fun t ht => ?_) (fun q hq => ?_) (fun x w t => (hnet.few x w t).trans (h.once x w t))
    fun x w t _ => hnet.few x w t
  · have hle : (c.node id).currentTerm ≤ p'.node.currentTerm := by rcases hs.vote with h | h <;> omega
    exact ⟨ht.1.trans hle, fun he => (ht.2 (htimer he)).trans_le hle⟩
  · refine (hnet.wired q hq).imp_right fun ⟨hsrc, hdst, hne, hb⟩ => ?_
    exact sealed_of_not_ballot hsrc hdst hne hb

theorem Elect.not_leadership (h : Elect peers g c) {q : Packet} (hq : q ∈ c.net) :
    (c.procs id).timer ≠ .leadership := by
  intro ht
  obtain ⟨hsrc, hdst, hne, -⟩ := h.sealed q hq
  have hlen := ((h.seat id).leadership ht).2
  match peers, hlen with
  | [], _ => cases hsrc
  | [x], _ => exact hne ((List.mem_singleton.mp hsrc).trans (List.mem_singleton.mp hdst).symm)

theorem Seat.self_vote (h : Seat peers g net id p) (hnil : [] ∉ peers) (hc : p.node.state = .candidate) :
    g id p.node.currentTerm = some id := by
  obtain ⟨hv, hid⟩ := h.self hc
  rw [h.voted, RaftNode.vote, hv, if_neg]
  rintro rfl
  exact hnil hid

theorem Elect.candidacy (h : Elect peers g c) (hid : id ∈ peers) (hnil : [] ∉ peers) :
    g.Le (g.cast id ((c.node id).currentTerm + 1) id) ∧
      Elect peers (g.cast id ((c.node id).currentTerm + 1) id) (c.put id { c.procs id with
        node := (c.node id).becomeCandidate ⟨id, peers⟩, timer := .election } c.net) := by
  have hs := h.seat id
  have hne : id ≠ [] := by rintro rfl; exact hnil hid
  have hle : g.Le (g.cast id ((c.node id).currentTerm + 1) id) :=
    Ballots.cast_le (.inl (hs.future _ (Nat.lt_succ_self _)))
  refine ⟨hle, h.put hle
    (fun w hw => by simp [Ballots.cast, hw]) (.persistState (h.intact id).sentinel) ?_
    (fun t ht => ⟨ht.1.trans (Nat.le_succ _), fun _ => Nat.lt_succ_of_le ht.1⟩) (fun q hq => .inl hq)
    h.once fun _ _ _ _ => le_rfl⟩
  refine ⟨?_, fun t ht => ?_, fun _ => ⟨rfl, hid⟩, fun _ => .inl rfl, fun _ _ => le_rfl,
    fun _ => Nat.le_add_right 1 _, nofun, nofun, hs.sending⟩
  · simp [Ballots.cast, RaftNode.becomeCandidate, RaftNode.persistState, RaftNode.vote, hne]
  · have ht : (c.node id).currentTerm + 1 < t := ht
    simpa [Ballots.cast, Nat.ne_of_gt ht] using hs.future t (by show (c.node id).currentTerm < t; omega)

theorem countP_requests (x w : Bytes) (t : Nat) (n : RaftNode) (l : List Bytes) :
    (l.map fun peer => (⟨id, peer, .requestVote (n.voteRequest ⟨id, peers⟩)⟩ : Packet)).countP (isBallot x w t) =
      if id = x ∧ n.currentTerm = t then l.count w else 0 := by
  rw [List.countP_map]
  split
  · next he =>
    rw [List.count]
    exact List.countP_congr fun q _ => by simp [isBallot, RaftNode.voteRequest, he]
  · next he =>
    refine List.countP_eq_zero.mpr fun q _ hb => ?_
    obtain ⟨hx, -, ht⟩ := of_decide_eq_true hb
    exact he ⟨hx, ht⟩

/-- StartElection asks each peer once, and never again in this term. -/
theorem Elect.request (h : Elect peers g c) (hid : id ∈ peers) (hnd : peers.Nodup)
    (htimer : (c.procs id).timer = .election) :
    Elect peers g (c.put id { c.procs id with timer := .tally }
      ((RaftConfig.mk id peers).others.map (fun peer => (⟨id, peer, .requestVote
        ((c.node id).voteRequest ⟨id, peers⟩)⟩ : Packet)) ++ c.net)) := by
  have hs := h.seat id
  have hnone {w : Bytes} : c.net.countP (isBallot id w (c.node id).currentTerm) = 0 := by
    refine List.countP_eq_zero.mpr fun q hq hb => ?_
    obtain ⟨-, -, -, hm⟩ := h.sealed q hq
    rw [isBallot] at hb
    split at hb
    · next req hreq =>
      rw [hreq] at hm
      obtain ⟨rfl, -, ht⟩ := of_decide_eq_true hb
      have := hm.2.2 htimer
      exact absurd this (by rw [ht]; exact Nat.lt_irrefl _)
    · next resp hresp =>
      rw [hresp] at hm
      obtain ⟨-, rfl, ht, hv⟩ := of_decide_eq_true hb
      have := (hm hv).2.2 htimer
      exact absurd this (by rw [ht]; exact Nat.lt_irrefl _)
    · cases hb
  refine h.put (.refl g) (fun _ _ => rfl) (h.intact id) ?_ (fun t ht => ⟨ht.1, nofun⟩) (fun q hq => ?_)
    (fun x w t => ?_) fun x w t hx => ?_
  · exact { hs with
      fresh := nofun
      counted := fun hc => (hs.fresh htimer hc).trans (Nat.le_add_right 1 _)
      leadership := nofun }
  · refine (List.mem_append.mp hq).symm.imp_right fun hq => ?_
    obtain ⟨peer, hpeer, rfl⟩ := List.mem_map.mp hq
    obtain ⟨hpeer, hne⟩ := List.mem_filter.mp hpeer
    refine ⟨hid, hpeer, Ne.symm (by simpa using hne), rfl, ?_, ?_⟩
    · simp [RaftNode.voteRequest, Cluster.node]
    · simp
  · rw [List.countP_append, countP_requests]
    split
    · next he =>
      obtain ⟨rfl, rfl⟩ := he
      rw [hnone]
      exact List.nodup_iff_count_le_one.mp (hnd.filter _) w
    · rw [Nat.zero_add]
      exact h.once x w t
  · rw [List.countP_append, countP_requests, if_neg (fun he => hx he.1.symm), Nat.zero_add]

theorem Elect.lead (h : Elect peers g c) (hid : id ∈ peers) {S : Finset Bytes} (hS : Majority peers S)
    (hv : ∀ w ∈ S, g w (c.node id).currentTerm = some id) (hi : p'.node.Intact)
    (hterm : p'.node.currentTerm = (c.node id).currentTerm) (hvote : p'.node.votedFor = (c.node id).votedFor)
    (hstate : p'.node.state = .leader) (hsend : p'.node.sending = (RaftConfig.mk id peers).others)
    (htimer : p'.timer = .election → (c.procs id).timer = .election) (hlead : p'.timer ≠ .leadership)
    (hnet : Calm peers c.net net') : Elect peers g (c.put id p' net') := by
  have hs := h.seat id
  have hnot : p'.node.state ≠ .candidate := by rw [hstate]; simp
  refine h.put (.refl g) (fun _ _ => rfl) hi ?_ (fun t ht => ?_) (fun q hq => ?_)
    (fun x w t => (hnet.few x w t).trans (h.once x w t)) fun x w t _ => hnet.few x w t
  · refine ⟨?_, fun t ht => hs.future t (by rwa [hterm] at ht), fun hc => absurd hc hnot,
      fun hc => absurd hc hnot, fun _ hc => absurd hc hnot, fun hc => absurd hc hnot, fun _ => ?_,
      fun hl => absurd hl hlead, fun q hq => ?_⟩
    · rw [hterm, RaftNode.vote, hvote]
      exact hs.voted
    · rw [hterm]
      exact ⟨S, hS, hv⟩
    · rw [hsend] at hq
      obtain ⟨hq, hne⟩ := List.mem_filter.mp hq
      exact ⟨hid, hq, Ne.symm (by simpa using hne)⟩
  · rw [Before, hterm]
    exact ⟨ht.1, fun he => ht.2 (htimer he)⟩
  · refine (hnet.wired q hq).imp_right fun ⟨hsrc, hdst, hne, hb⟩ => ?_
    exact sealed_of_not_ballot hsrc hdst hne hb

theorem Elect.vote_free (h : Elect peers g c) {x : Bytes} {t : Nat} (hterm : (c.node id).currentTerm ≤ t)
    (hfree : ((c.node id).catchUp t).votedFor = [] ∨ ((c.node id).catchUp t).votedFor = x) :
    g id t = none ∨ g id t = some x := by
  have hv : g id t = ((c.node id).catchUp t).vote := by
    rcases hterm.lt_or_eq with hlt | rfl
    · rw [RaftNode.catchUp_of_lt hlt]
      exact (h.seat id).future t hlt
    · rw [RaftNode.catchUp_of_le le_rfl]
      exact (h.seat id).voted
  rw [hv, RaftNode.vote]
  split
  · exact .inl rfl
  · next hne => exact .inr (congrArg some (hfree.resolve_left hne))

/-- A vote given: the request leaves the net, the reply that takes its place is the same ballot. -/
theorem Elect.grant (h : Elect peers g c) (hnil : [] ∉ peers) {src : Bytes} {req : RequestVoteRequest}
    (hmem : ⟨src, id, .requestVote req⟩ ∈ c.net) (hterm : (c.node id).currentTerm ≤ req.term)
    (hfree : ((c.node id).catchUp req.term).votedFor = [] ∨
      ((c.node id).catchUp req.term).votedFor = req.candidateId) :
    g.Le (g.cast id req.term src) ∧ Elect peers (g.cast id req.term src) (c.put id { c.procs id with
        node := { (c.node id).catchUp req.term with votedFor := req.candidateId }.persistState }
      (⟨id, src, .requestVoteResponse ⟨req.term, true⟩⟩ :: c.net.erase ⟨src, id, .requestVote req⟩)) := by
  obtain ⟨hsrc, hid, hne, hcand, hbefore⟩ := h.sealed _ hmem
  dsimp only at hsrc hid hne hcand hbefore
  rw [hcand] at hfree ⊢
  have hsrc' : src ≠ [] := by rintro rfl; exact hnil hsrc
  have ht : ((c.node id).catchUp req.term).currentTerm = req.term := by
    rw [RaftNode.catchUp_currentTerm, max_eq_right hterm]
  have hs : Seat peers g c.net id { c.procs id with node := (c.node id).catchUp req.term } :=
    (h.seat id).steady (.catchUp _ _) (fun he => he) (fun hl => absurd hl (h.not_leadership hmem))
      fun _ _ => le_rfl
  have hcast := h.vote_free hterm hfree
  have hballot x w t : isBallot x w t ⟨id, src, .requestVoteResponse ⟨req.term, true⟩⟩ =
      isBallot x w t ⟨src, id, .requestVote req⟩ := by
    simp only [isBallot, and_true]
    exact decide_eq_decide.mpr (and_left_comm)
  have hcount x w t : (⟨id, src, .requestVoteResponse ⟨req.term, true⟩⟩ ::
      c.net.erase ⟨src, id, .requestVote req⟩ : List Packet).countP (isBallot x w t) =
      c.net.countP (isBallot x w t) := by
    rw [(List.perm_cons_erase hmem).countP_eq, List.countP_cons, List.countP_cons, hballot]
  -- a candidate has its own vote, so it has none for another node
  have hcandidate : ((c.node id).catchUp req.term).state ≠ .candidate := by
    intro hc
    have hv := (hs.self hc).1
    dsimp only at hv
    rw [hv] at hfree
    rcases hfree with hf | hf
    · exact hnil (hf ▸ hid)
    · exact hne hf.symm
  refine ⟨Ballots.cast_le hcast, h.put (Ballots.cast_le hcast) (fun w hw => by simp [Ballots.cast, hw])
    (.persistState ((h.intact id).catchUp _).sentinel) ?_ (fun t hb => ?_) (fun q hq => ?_)
    (fun x w t => (hcount x w t).le.trans (h.once x w t)) fun x w t _ => (hcount x w t).le⟩
  · refine ⟨?_, fun t hlt => ?_, fun hc => absurd hc hcandidate, fun hc => absurd hc hcandidate,
      fun _ hc => absurd hc hcandidate, fun hc => absurd hc hcandidate, fun hl => ?_,
      fun hl => absurd hl (h.not_leadership hmem), hs.sending⟩
    · simp [Ballots.cast, RaftNode.persistState, RaftNode.vote, ht, hsrc']
    · have hlt : req.term < t := ht ▸ hlt
      simpa [Ballots.cast, Nat.ne_of_gt hlt] using hs.future t (by rwa [← ht] at hlt)
    · obtain ⟨S, hS, hv⟩ := hs.leader hl
      exact ⟨S, hS, fun w hw => Ballots.cast_le hcast _ _ _ (hv w hw)⟩
  · have hle : (c.node id).currentTerm ≤ ((c.node id).catchUp req.term).currentTerm := by omega
    exact ⟨hb.1.trans hle, fun he => (hb.2 he).trans_le hle⟩
  · rcases List.mem_cons.mp hq with rfl | hq
    · refine .inr ⟨hid, hsrc, hne.symm, fun _ => ⟨by simp [Ballots.cast], ?_⟩⟩
      simpa [hne] using hbefore
    · exact .inl (List.mem_of_mem_erase hq)

/-- A granted vote that arrives was not confirmed before and is confirmed now. -/
theorem Elect.arrive (h : Elect peers g c) {src : Bytes} {resp : RequestVoteResponse}
    (hmem : ⟨src, id, .requestVoteResponse resp⟩ ∈ c.net) (hterm : resp.term = (c.node id).currentTerm)
    (hgrant : resp.voteGranted = true) :
    (c.procs id).timer ≠ .election ∧
      (confirmed peers g c.net id (c.node id).currentTerm).card + 1 ≤
        (confirmed peers g (c.net.erase ⟨src, id, .requestVoteResponse resp⟩) id
          (c.node id).currentTerm).card := by
  obtain ⟨hsrc, hid, hne, hm⟩ := h.sealed _ hmem
  obtain ⟨hvote, hbefore⟩ := hm hgrant
  dsimp only at hsrc hid hne hvote hbefore
  rw [hterm] at hvote hbefore
  refine ⟨fun he => Nat.lt_irrefl _ (hbefore.2 he), ?_⟩
  have hballot : isBallot id src (c.node id).currentTerm ⟨src, id, .requestVoteResponse resp⟩ = true := by
    simp [isBallot, hterm, hgrant]
  have hcount := (List.perm_cons_erase hmem).countP_eq (isBallot id src (c.node id).currentTerm)
  rw [List.countP_cons_of_pos hballot] at hcount
  have hnew : src ∉ confirmed peers g c.net id (c.node id).currentTerm := by
    intro hw
    have := (Finset.mem_filter.mp hw).2.2.2
    omega
  rw [← Finset.card_insert_of_notMem hnew]
  refine Finset.card_le_card fun w hw => ?_
  rcases Finset.mem_insert.mp hw with rfl | hw
  · have := h.once id w (c.node id).currentTerm
    exact Finset.mem_filter.mpr ⟨List.mem_toFinset.mpr hsrc, hne, hvote, by omega⟩
  · have hcalm : Calm peers c.net (c.net.erase ⟨src, id, .requestVoteResponse resp⟩) := .erase _ _
    exact confirmed_mono (.refl g) (fun v => hcalm.few id v _) hw

theorem Seat.majority (h : Seat peers g net id p) (net' : List Packet) (hnil : [] ∉ peers)
    (hc : p.node.state = .candidate)
    (hmaj : peers.length / 2 + 1 ≤ 1 + (confirmed peers g net' id p.node.currentTerm).card) :
    Majority peers (insert id (confirmed peers g net' id p.node.currentTerm)) ∧
      ∀ w ∈ insert id (confirmed peers g net' id p.node.currentTerm), g w p.node.currentTerm = some id := by
  refine ⟨⟨fun w hw => ?_, ?_⟩, fun w hw => ?_⟩
  · rcases Finset.mem_insert.mp hw with rfl | hw
    · exact List.mem_toFinset.mpr (h.self hc).2
    · exact (Finset.mem_filter.mp hw).1
  · rw [Finset.card_insert_of_notMem fun hw => (Finset.mem_filter.mp hw).2.1 rfl]
    omega
  · rcases Finset.mem_insert.mp hw with rfl | hw
    · exact h.self_vote hnil hc
    · exact (Finset.mem_filter.mp hw).2.2.1

theorem Elect.count (h : Elect peers g c) (hnil : [] ∉ peers) {src : Bytes} {resp : RequestVoteResponse}
    (hmem : ⟨src, id, .requestVoteResponse resp⟩ ∈ c.net) :
    Elect peers g (c.put id { c.procs id with node := (c.node id).handleRequestVoteResponse ⟨id, peers⟩ resp }
      (c.net.erase ⟨src, id, .requestVoteResponse resp⟩)) := by
  have hs := h.seat id
  have hi : ((c.node id).handleRequestVoteResponse ⟨id, peers⟩ resp).Intact :=
    (h.intact id).handleRequestVoteResponse resp
  have hcalm : Calm peers c.net (c.net.erase ⟨src, id, .requestVoteResponse resp⟩) := .erase _ _
  have ho := RaftNode.handleRequestVoteResponse_cases ⟨id, peers⟩ (c.node id) resp
  have hleader : (c.procs id).timer ≠ .leadership := h.not_leadership hmem
  generalize (c.node id).handleRequestVoteResponse ⟨id, peers⟩ resp = m at ho hi ⊢
  cases ho with
  | adopt ht => exact h.steady hi (.adoptTerm ht) (fun he => he) (fun hl => absurd hl hleader) hcalm
  | ignore => exact h.steady hi (.refl _) (fun he => he) (fun hl => absurd hl hleader) hcalm
  | count hterm hstate hgrant hfew =>
      obtain ⟨htimer, hcard⟩ := h.arrive hmem hterm hgrant
      have hcount := hs.counted hstate
      refine h.put (.refl g) (fun _ _ => rfl) hi ?_ (fun t ht => ht)
        (fun q hq => .inl (List.mem_of_mem_erase hq)) (fun x w t => (hcalm.few x w t).trans (h.once x w t))
        fun x w t _ => hcalm.few x w t
      exact ⟨hs.voted, hs.future, hs.self, fun _ => .inr hfew, fun he => absurd he htimer,
        fun _ => by show (c.node id).votesReceived + 1 ≤ _; exact (Nat.add_le_add_right hcount 1).trans (by
          rw [Nat.add_assoc]; exact Nat.add_le_add_left hcard 1), hs.leader,
        fun hl => absurd hl hleader, hs.sending⟩
  | win hterm hstate hgrant hmaj =>
      obtain ⟨htimer, hcard⟩ := h.arrive hmem hterm hgrant
      have hcount := hs.counted hstate
      have hmaj : peers.length / 2 + 1 ≤ (c.node id).votesReceived + 1 := hmaj
      obtain ⟨hS, hv⟩ := hs.majority (c.net.erase ⟨src, id, .requestVoteResponse resp⟩) hnil hstate
        (hmaj.trans ((Nat.add_le_add_right hcount 1).trans (by
          rw [Nat.add_assoc]; exact Nat.add_le_add_left hcard 1)))
      rw [RaftNode.becomeLeader_eq] at hi ⊢
      exact h.lead (hs.self hstate).2 hS hv hi rfl rfl rfl rfl (fun he => he) hleader hcalm

theorem Elect.leadership (h : Elect peers g c) (hnil : [] ∉ peers)
    (htimer : (c.procs id).timer = .leadership) :
    Elect peers g (c.put id { c.procs id with
      node := (c.node id).becomeLeader ⟨id, peers⟩, timer := .idle } c.net) := by
  have hs := h.seat id
  obtain ⟨hstate, hlen⟩ := hs.leadership htimer
  have hself := (hs.self hstate).2
  rw [RaftNode.becomeLeader_eq]
  refine h.lead (S := {id}) hself ⟨by simpa using hself, by rw [Finset.card_singleton]; omega⟩
    (fun w hw => ?_) ((h.intact id).congr rfl rfl rfl rfl) rfl rfl rfl rfl nofun nofun (.refl _)
  rw [Finset.mem_singleton.mp hw]
  exact hs.self_vote hnil hstate

/-- At most one vote more, of one node in one term. -/
def Ballots.Adds (g g' : Ballots) (id : Bytes) (t : Nat) : Prop :=
  g.Le g' ∧ ∀ w u, w ≠ id ∨ u ≠ t → g' w u = g w u

theorem Ballots.Adds.refl (g : Ballots) (id : Bytes) (t : Nat) : g.Adds g id t := ⟨.refl g, fun _ _ _ => rfl⟩

theorem Elect.timer (h : Elect peers g c) (hnd : peers.Nodup) (hnil : [] ∉ peers) (hid : id ∈ peers)
    (hi : ((c.procs id).timerStep ⟨id, peers⟩).1.node.Intact) :
    ∃ g', g.Adds g' id ((c.procs id).timerStep ⟨id, peers⟩).1.node.currentTerm ∧
      Elect peers g' (c.put id ((c.procs id).timerStep ⟨id, peers⟩).1
        (((c.procs id).timerStep ⟨id, peers⟩).2 ++ c.net)) := by
  cases htimer : (c.procs id).timer with
  | idle =>
      simp only [Process.timerStep, htimer]
      refine ⟨g, .refl g id _, h.steady (h.intact id) (.refl _) (fun he => ?_) (fun he => ?_) (.refl _)⟩
      all_goals dsimp only at he; split at he <;> cases he
  | heartbeats =>
      simp only [Process.timerStep, htimer] at hi ⊢
      exact ⟨g, .refl g id _, h.steady hi (.sendHeartbeats _ hid) (fun he => by cases he) (fun hl => by cases hl)
        (.refl _)⟩
  | candidacy =>
      simp only [Process.timerStep, htimer]
      obtain ⟨hle, he⟩ := h.candidacy hid hnil
      exact ⟨_, ⟨hle, fun w t hw => Ballots.cast_of_ne hw⟩, he⟩
  | election =>
      simp only [Process.timerStep, htimer]
      exact ⟨g, .refl g id _, h.request hid hnd htimer⟩
  | tally =>
      simp only [Process.timerStep, htimer]
      refine ⟨g, .refl g id _, h.steady (h.intact id) (.refl _) (fun he => ?_) (fun he => ?_) (.refl _)⟩
      · dsimp only at he; split at he <;> cases he
      · dsimp only at he
        split at he
        · next hc =>
          -- before a majority is counted the candidate has one vote or too few
          refine ⟨hc.1, ?_⟩
          have hmaj : peers.length / 2 + 1 ≤ (c.node id).votesReceived := hc.2
          have := (h.seat id).few hc.1
          simp only [Cluster.node] at hmaj
          omega
        · cases he
  | leadership =>
      simp only [Process.timerStep, htimer]
      exact ⟨g, .refl g id _, h.leadership hnil htimer⟩

/-- A step adds at most one vote to the ballots, of the node and in its new term, and keeps the invariant. -/
theorem Elect.step_adds (h : Elect peers g c) (hnd : peers.Nodup) (hnil : [] ∉ peers) {a : Action}
    (hs : ProcStep peers id (c.procs id) c.net a p' net') :
    ∃ g', g.Adds g' id p'.node.currentTerm ∧ Elect peers g' (c.put id p' net') := by
  have hi := hs.intact (h.intact id)
  have hstay {q : Process} {net' : List Packet} (hq : q.timer = (c.procs id).timer)
      (hqi : q.node.Intact) (hst : Steady peers id (c.node id) q.node)
      (hl : q.timer = .leadership → q.node.state = (c.node id).state) (hc : Calm peers c.net net') :
      ∃ g', g.Adds g' id q.node.currentTerm ∧ Elect peers g' (c.put id q net') :=
    ⟨g, .refl g id _, h.steady hqi hst (fun he => hq ▸ he)
      (fun he => ⟨(hl he).trans ((h.seat id).leadership (hq ▸ he)).1, ((h.seat id).leadership (hq ▸ he)).2⟩) hc⟩
  have hleave {q : Packet} (hmem : q ∈ c.net) {m : RaftNode} {net' : List Packet} (hqi : m.Intact)
      (hst : Steady peers id (c.node id) m) (hc : Calm peers c.net net') :
      ∃ g', g.Adds g' id m.currentTerm ∧ Elect peers g' (c.put id { c.procs id with node := m } net') :=
    hstay (q := { c.procs id with node := m }) rfl hqi hst (fun hl => absurd hl (h.not_leadership hmem)) hc
  have hreply {q : Packet} (hmem : q ∈ c.net) {msg : RaftMessage}
      (hb : ∀ x w t, isBallot x w t ⟨q.dst, q.src, msg⟩ = false) :
      Calm peers c.net (⟨q.dst, q.src, msg⟩ :: c.net.erase q) := by
    obtain ⟨hsrc, hdst, hne, -⟩ := h.sealed q hmem
    exact (Calm.erase c.net q).cons hdst hsrc hne.symm hb
  cases hs with
  | timer hid hfree => exact h.timer hnd hnil hid hi
  | heartbeat peer rest hsend =>
      have hw := (h.seat id).sending
      refine hstay rfl hi ⟨.inl ⟨rfl, rfl⟩, .inr ⟨rfl, rfl, rfl⟩, fun q hq => .inl ?_⟩ (fun _ => rfl) ?_
      · exact hsend ▸ List.mem_cons_of_mem _ hq
      · obtain ⟨hid, hpeer, hne⟩ := hw peer (hsend ▸ List.mem_cons_self)
        exact (Calm.refl _).cons hid hpeer hne fun _ _ _ => rfl
  | propose command => exact hstay rfl hi ((Steady.refl _).congr rfl rfl rfl rfl rfl) (fun _ => rfl) (.refl _)
  | refuse | wait | capture => exact hstay rfl hi (.refl _) (fun _ => rfl) (.refl _)
  | advance k expired hid hfree call hcall hpc =>
      exact hstay rfl hi ((Steady.refl _).advanceCommitIndex _)
        (fun _ => RaftNode.advanceCommitIndex_state _ _) (.refl _)
  | send k expired hid =>
      refine hstay rfl hi (.sendHeartbeats _ hid) (fun _ => ?_) (.refl _)
      dsimp only
      rw [RaftNode.sendHeartbeats]
      split <;> rfl
  | write | trim =>
      exact hstay rfl hi ((Steady.refl _).congr rfl rfl rfl rfl rfl) (fun _ => rfl) (.refl _)
  | requestVote src req hmem hid hfree =>
      have ho := RaftNode.handleRequestVote_cases (c.node id) req
      simp only [Cluster.node] at ho
      generalize (c.procs id).node.handleRequestVote req = r at ho hi ⊢
      cases ho with
      | stale => exact hleave hmem hi (.refl _) (hreply hmem fun _ _ _ => by simp [isBallot])
      | refuse => exact hleave hmem hi (.catchUp _ _) (hreply hmem fun _ _ _ => by simp [isBallot])
      | grant hterm hfree hup =>
          obtain ⟨hle, he⟩ := h.grant hnil hmem hterm hfree
          have ht : ((c.node id).catchUp req.term).currentTerm = req.term := by
            rw [RaftNode.catchUp_currentTerm]
            exact max_eq_right hterm
          exact ⟨_, ⟨hle, fun w t hw => Ballots.cast_of_ne (hw.imp_right fun hne he => hne (he.trans ht.symm))⟩, he⟩
  | requestVoteResponse src resp hmem => exact ⟨g, .refl g id _, h.count hnil hmem⟩
  | appendEntries src req hmem hid hfree n hn =>
      exact hleave hmem hi (.handleAppendEntries hn) (hreply hmem fun _ _ _ => rfl)
  | appendEntriesResponse src resp hmem =>
      exact hleave hmem hi (.handleAppendEntriesResponse _ _ _ _) (.erase _ _)
  | installSnapshot src req hmem =>
      exact hleave hmem hi (.handleInstallSnapshot _ _) (hreply hmem fun _ _ _ => rfl)
  | installSnapshotResponse src resp hmem => exact hleave hmem hi (.refl _) (.erase _ _)
  | lose packet hmem => exact hleave hmem hi (.refl _) (.erase _ _)
  | restart =>
      exact ⟨g, .refl g id _, h.steady hi ((Steady.refl _).restart (h.intact id)) (fun he => by cases he)
        (fun hl => by cases hl) (.refl _)⟩
  | crashHandling packet hmem hdst hid hterm =>
      exact ⟨g, .refl g id _, h.steady hi ((Steady.adoptTerm hterm).restart (.persistState (h.intact id).sentinel))
        (fun he => by cases he) (fun hl => by cases hl) (.erase _ _)⟩

theorem Elect.step (h : Elect peers g c) (hnd : peers.Nodup) (hnil : [] ∉ peers) {a : Action}
    (hs : ProcStep peers id (c.procs id) c.net a p' net') :
    g.Le (g.observe id p'.node) ∧ Elect peers (g.observe id p'.node) (c.put id p' net') := by
  obtain ⟨g', ⟨hle, hadds⟩, he⟩ := h.step_adds hnd hnil hs
  have hv : g' id p'.node.currentTerm = p'.node.vote := by simpa [Cluster.put] using (he.seat id).voted
  suffices hg : g.observe id p'.node = g' by rw [hg]; exact ⟨hle, he⟩
  funext w t
  by_cases hw : w ≠ id ∨ t ≠ p'.node.currentTerm
  · rw [hadds w t hw, Ballots.observe]
    split
    · rfl
    · exact Ballots.cast_of_ne hw
  · obtain ⟨rfl, rfl⟩ : w = id ∧ t = p'.node.currentTerm := by tauto
    rw [hv, RaftNode.vote, Ballots.observe]
    split
    · next hnone =>
      cases hg : g w p'.node.currentTerm with
      | none => rfl
      | some x =>
          have := hle _ _ _ hg
          rw [hv, RaftNode.vote, if_pos hnone] at this
          cases this
    · simp [Ballots.cast]

theorem observe_self (hv : g id n.currentTerm = n.vote) :
    (if n.votedFor = [] then g else g.cast id n.currentTerm n.votedFor) = g := by
  rw [RaftNode.vote] at hv
  split
  · rfl
  · next hne =>
    rw [if_neg hne] at hv
    rw [Ballots.cast, ← hv, Function.update_eq_self, Function.update_eq_self]

theorem Steady.observe (h : Steady peers id n m) (hv : g id n.currentTerm = n.vote) : g.observe id m = g := by
  rw [Ballots.observe]
  rcases h.vote with ⟨ht, hm⟩ | ⟨-, hm⟩
  · rw [ht, hm]
    exact observe_self hv
  · rw [if_pos hm]

theorem Elect.start (peers : List Bytes) : Elect peers (fun _ _ => none) Raft.start where
  intact _ := .start
  seat _ := ⟨rfl, fun _ _ => rfl, nofun, nofun, nofun, nofun, nofun, nofun, nofun⟩
  sealed _ h := by cases h
  once _ _ _ := Nat.zero_le _

theorem Ballots.Le.trans {g'' : Ballots} (h : g.Le g') (k : g'.Le g'') : g.Le g'' :=
  fun _ _ _ e => k _ _ _ (h _ _ _ e)

theorem Elect.run {guard : Cluster → Action → Prop} (hnd : peers.Nodup) (hnil : [] ∉ peers)
    {acts : List Action} {c' : Cluster} (h : Elect peers g c)
    (hr : Runs.Run (Raft.step peers) guard c acts c') : ∃ g', g.Le g' ∧ Elect peers g' c' := by
  refine Runs.Run.history (R := Ballots.Le) .refl .trans (fun g c a c' hi _ hs => ?_) h hr
  obtain ⟨id, p', net', rfl, hp⟩ := step_cases hs
  exact ⟨_, hi.step hnd hnil hp⟩

/-- At most one node is ever LEADER in a term: not two at once, and not one after another. -/
theorem election_safety (hnd : peers.Nodup) (hnil : [] ∉ peers) {acts acts' : List Action} {c c' : Cluster}
    (h : Runs.Run (Raft.step peers) (fun _ _ => True) start acts c)
    (h' : Runs.Run (Raft.step peers) (fun _ _ => True) c acts' c') {x y : Bytes}
    (hx : (c.node x).state = .leader) (hy : (c'.node y).state = .leader)
    (ht : (c.node x).currentTerm = (c'.node y).currentTerm) : x = y := by
  obtain ⟨g, -, hg⟩ := (Elect.start peers).run hnd hnil h
  obtain ⟨g', hle, hg'⟩ := hg.run hnd hnil h'
  obtain ⟨S, hS, hSv⟩ := (hg.seat x).leader hx
  obtain ⟨T, hT, hTv⟩ := (hg'.seat y).leader hy
  obtain ⟨v, hvS, hvT⟩ := hS.inter hT
  have hv := hle _ _ _ (hSv v hvS)
  have hw := hTv v hvT
  simp only [Cluster.node] at ht
  rw [ht] at hv
  exact Option.some.inj (hv.symm.trans hw)

/-- A node is elected, and while its term lasts nobody else is. -/
theorem election_safety_trio : ∃ c c' : Cluster,
    Runs.Run (Raft.step Trio.peers) (fun _ _ => True) start (Trio.election Trio.a Trio.b 1 0 0) c ∧
    Runs.Run (Raft.step Trio.peers) (fun _ _ => True) c [.propose Trio.a [1]] c' ∧
    (c.node Trio.a).state = .leader ∧ (c'.node Trio.a).log.length = 2 ∧
    ∀ y, (c'.node y).state = .leader → (c'.node y).currentTerm = 1 → Trio.a = y := by
  obtain ⟨c, c', h, h', hp⟩ := Runs.exists_runs_of_exec (Raft.step Trio.peers) (fun _ _ => True)
    start (Trio.election Trio.a Trio.b 1 0 0) [.propose Trio.a [1]]
    (fun c c' => (c.node Trio.a).state = .leader ∧ (c.node Trio.a).currentTerm = 1 ∧
      (c'.node Trio.a).log.length = 2) rfl
  obtain ⟨hx, ht, hlen⟩ := of_decide_eq_true hp
  exact ⟨c, c', h, h', hx, hlen, fun y hy hty =>
    election_safety (by decide) (by decide) h h' hx hy (ht.trans hty.symm)⟩

end MiniStorage.Raft
