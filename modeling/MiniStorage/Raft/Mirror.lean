import MiniStorage.Raft.Elections
import MiniStorage.Raft.FullLog
import MiniStorage.Raft.Guards
import MiniStorage.Replication.Completeness

namespace MiniStorage.Raft

open Replication

/-- A state of the replication protocol beside a cluster: the full logs, the
votes and the leaders of the past. -/
abbrev Ghost := State Bytes LogEntry

abbrev GhostStep (peers : List Bytes) := Step (N := Bytes) LogEntry.term (Majority peers)

def RaftState.role : RaftState → Role
  | .follower => .follower
  | .candidate => .candidate
  | .leader => .leader

/-- A node's part of the ghost. -/
structure Mirrors (a : Ghost) (id : Bytes) (n : RaftNode) : Prop where
  term : a.term id = n.currentTerm
  role : a.role id = n.state.role
  log : Holds n.log n.snapshotLastIndex (a.log id)
  snapTerm : n.snapshotLastTerm = termAt (a.log id) n.snapshotLastIndex

/-- A request cut from a log: the entry it builds on, and all that follows. -/
structure Cut (L : List LogEntry) (req : AppendEntriesRequest) : Prop where
  numbered : Numbered 0 L
  prevTerm : req.prevLogTerm = termAt L req.prevLogIndex
  entries : req.entries = L.drop req.prevLogIndex

/-- A candidate claims no more than its log has. -/
def Claims (L : List LogEntry) (req : RequestVoteRequest) : Prop :=
  req.lastLogTerm < lastTerm LogEntry.term L ∨
    req.lastLogTerm = lastTerm LogEntry.term L ∧ req.lastLogIndex ≤ L.length

def Fair (a : Ghost) (q : Packet) : Prop :=
  match q.msg with
  | .requestVote req => a.role q.src = .candidate → a.term q.src = req.term → Claims (a.log q.src) req
  | .appendEntries req => ∃ L, Cut L req ∧ Rooted LogEntry.term a.llog L ∧ ∀ e ∈ L, e.term ≤ req.term
  | .installSnapshot _ => False
  | _ => True

/-- The cluster and its ghost: the ghost keeps the protocol's invariant, its
votes are the ballots, and every node and packet agrees with it. -/
structure Mirror (peers : List Bytes) (a : Ghost) (c : Cluster) : Prop where
  inv : Inv LogEntry.term (Majority peers) a
  elect : Elect peers a.vote c
  node : ∀ id, Mirrors a id (c.node id)
  stocked : ∀ id, (c.node id).Stocked ⟨id, peers⟩
  fair : ∀ q ∈ c.net, Fair a q

/-- What the ghost says of the other nodes stays. -/
structure Touches (id : Bytes) (a b : Ghost) : Prop where
  term : ∀ w, w ≠ id → b.term w = a.term w
  role : ∀ w, w ≠ id → b.role w = a.role w
  log : ∀ w, w ≠ id → b.log w = a.log w

variable {peers : List Bytes} {a b : Ghost} {c : Cluster} {id : Bytes} {p' : Process} {n n' : RaftNode}
  {net' : List Packet} {act : Action}

theorem Touches.refl (id : Bytes) (a : Ghost) : Touches id a a := ⟨fun _ _ => rfl, fun _ _ => rfl, fun _ _ => rfl⟩

theorem Mirror.start (peers : List Bytes) : Mirror peers (State.initial Bytes LogEntry) Raft.start where
  inv := .initial
  elect := .start peers
  node _ := ⟨rfl, rfl, .start, rfl⟩
  stocked _ := ⟨nofun, nofun⟩
  fair _ h := by cases h

/-- What a step of one node owes: its moves in the ghost, the vote it holds
then, and packets that agree with the ghost. -/
theorem Mirror.put (h : Mirror peers a c) (hnd : peers.Nodup) (hnil : [] ∉ peers)
    (hp : ProcStep peers id (c.procs id) c.net act p' net')
    (hsteps : Relation.ReflTransGen (GhostStep peers) a b) (ht : Touches id a b)
    (hvote : b.vote = Ballots.observe a.vote id p'.node) (hm : Mirrors b id p'.node)
    (hcand : b.role id = .candidate → b.term id = a.term id → a.role id = .candidate ∧ b.log id = a.log id)
    (hnet : ∀ q ∈ net', q ∈ c.net ∨ Fair b q) : a.Le b ∧ Mirror peers b (c.put id p' net') := by
  obtain ⟨hle, hinv⟩ := h.inv.steps (fun _ _ => Majority.inter) hsteps
  refine ⟨hle, hinv, hvote ▸ (h.elect.step hnd hnil hp).2, ?_, ?_, fun q hq => ?_⟩
  · refine put_cases (P := fun w p => Mirrors b w p.node) c net' hm fun w hw => ?_
    have hn := h.node w
    exact ⟨(ht.term w hw).trans hn.term, (ht.role w hw).trans hn.role,
      by rw [ht.log w hw]; exact hn.log, by rw [ht.log w hw]; exact hn.snapTerm⟩
  · exact put_cases (P := fun w p => p.node.Stocked ⟨w, peers⟩) c net' (hp.stocked (h.stocked id))
      fun w _ => h.stocked w
  · rcases hnet q hq with hq | hq
    · have hf := h.fair q hq
      obtain ⟨-, -, -, hseal⟩ := h.elect.sealed q hq
      obtain ⟨src, dst, msg⟩ := q
      cases msg with
      | requestVote req =>
          intro hr hterm
          by_cases hw : src = id
          · subst src
            have hreq : req.term ≤ a.term id := (h.node id).term ▸ hseal.2.1
            have hsame : b.term id = a.term id := le_antisymm (hterm.le.trans hreq) (hle.term id)
            obtain ⟨hr', hlog⟩ := hcand hr hsame
            exact hlog ▸ hf hr' (hsame ▸ hterm)
          · rw [ht.log src hw]
            exact hf (ht.role src hw ▸ hr) (ht.term src hw ▸ hterm)
      | appendEntries req =>
          obtain ⟨L, hcut, hroot, hterm⟩ := hf
          exact ⟨L, hcut, hroot.mono hle.llog, hterm⟩
      | installSnapshot req => exact hf
      | _ => trivial
    · exact hq

/-- The term and the role a node has come to. -/
def settle (a : Ghost) (id : Bytes) (n : RaftNode) : Ghost :=
  { a with
    term := Function.update a.term id n.currentTerm
    role := Function.update a.role id n.state.role }

theorem Touches.settled (a : Ghost) (id : Bytes) (n : RaftNode) : Touches id a (settle a id n) :=
  ⟨fun w hw => by simp [settle, hw], fun w hw => by simp [settle, hw], fun _ _ => rfl⟩

theorem settle_self (h : a.term id = n.currentTerm) (hr : a.role id = n.state.role) : settle a id n = a := by
  rw [settle, ← h, ← hr, Function.update_eq_self, Function.update_eq_self]

theorem Mirrors.settle_steps (h : Mirrors a id n) (hs : Steady peers id n n') :
    Relation.ReflTransGen (GhostStep peers) a (settle a id n') := by
  rcases hs.role with hr | ⟨ht, hr, -⟩
  · have he : settle a id n' = a.follow id n'.currentTerm := by rw [settle, hr]; rfl
    rw [he]
    refine .single (.follow id _ ?_)
    rw [h.term]
    rcases hs.vote with ⟨ht, -⟩ | ⟨ht, -⟩
    · exact ht.ge
    · exact ht.le
  · rw [settle_self (h.term.trans ht.symm) (by rw [h.role, hr])]

theorem Mirrors.settle_role (h : Mirrors a id n) (hs : Steady peers id n n')
    (hr : (settle a id n').role id = .candidate) : a.role id = .candidate := by
  have hr : n'.state.role = .candidate := by simpa [settle] using hr
  rcases hs.role with hf | ⟨-, hst, -⟩
  · rw [hf] at hr; cases hr
  · rw [h.role, ← hst]; exact hr

theorem Mirror.settled (h : Mirror peers a c) (hnd : peers.Nodup) (hnil : [] ∉ peers)
    (hp : ProcStep peers id (c.procs id) c.net act p' net') (hs : Steady peers id (c.node id) p'.node)
    (hlog : Holds p'.node.log p'.node.snapshotLastIndex (a.log id))
    (hsnap : p'.node.snapshotLastTerm = termAt (a.log id) p'.node.snapshotLastIndex)
    (hnet : ∀ q ∈ net', q ∈ c.net ∨ Fair (settle a id p'.node) q) :
    a.Le (settle a id p'.node) ∧ Mirror peers (settle a id p'.node) (c.put id p' net') := by
  exact h.put hnd hnil hp ((h.node id).settle_steps hs) (.settled a id _)
    (hs.observe (h.elect.seat id).voted).symm ⟨by simp [settle], by simp [settle], hlog, hsnap⟩
    (fun hr _ => ⟨(h.node id).settle_role hs hr, rfl⟩) hnet

theorem Mirrors.cut (h : Mirrors a id n) {cfg : RaftConfig} {peer : Bytes} {j : Nat}
    (hj : n.nextIndex peer = some (j + 1)) (hs : n.snapshotLastIndex ≤ j) :
    Cut (a.log id) (n.heartbeatRequest cfg peer) := by
  rw [RaftNode.heartbeatRequest_eq cfg hj]
  refine ⟨h.log.numbered, ?_, ?_⟩
  · rcases hs.lt_or_eq with hlt | rfl
    · obtain ⟨i, rfl⟩ : ∃ i, j = i + 1 := ⟨j - 1, by omega⟩
      rw [RaftNode.prevLogTerm, if_pos hlt, RaftNode.getLogEntry, h.log.find_succ, if_pos (by omega), termAt]
    · rw [RaftNode.prevLogTerm_snapshot, h.snapTerm]
  · rw [h.log.filter, max_eq_right hs]

theorem Mirrors.claims (h : Mirrors a id n) (cfg : RaftConfig) : Claims (a.log id) (n.voteRequest cfg) := by
  rw [Claims, RaftNode.voteRequest]
  rcases h.log.back_cases with ⟨hi, ht⟩ | ⟨-, -, hb⟩
  · exact .inr ⟨ht, hi.le⟩
  · rw [hb]
    rcases Nat.eq_zero_or_pos (lastTerm LogEntry.term (a.log id)) with h0 | h0
    · exact .inr ⟨h0.symm, Nat.zero_le _⟩
    · exact .inl h0

/-- A voter's comparison, where it covers the snapshot, is one with its full log. -/
theorem Mirrors.upToDate (h : Mirrors a id n) {req : RequestVoteRequest} {L : List LogEntry}
    (hL : Claims L req) (hcover : n.covers req = true)
    (hup : (back n.log).term < req.lastLogTerm ∨
      req.lastLogTerm = (back n.log).term ∧ (back n.log).index ≤ req.lastLogIndex) :
    UpToDate LogEntry.term L (a.log id) := by
  rw [Claims] at hL
  rw [UpToDate]
  rcases h.log.back_cases with ⟨hi, ht⟩ | ⟨hlen, hpos, hb⟩
  · omega
  · have hterm : n.snapshotLastTerm = lastTerm LogEntry.term (a.log id) := by
      rw [h.snapTerm, ← hlen, termAt_length]
    simp only [RaftNode.covers, hb, Bool.or_eq_true, Bool.and_eq_true, decide_eq_true_eq] at hcover
    have hz : ({} : LogEntry).index = 0 := rfl
    omega

/-- A log that the check on the previous entry lets pass and that ends in the
request is a prefix of the log the request was cut from. -/
theorem Mirrors.prefix_of_endsIn (h : Mirrors a id n) (ha : Rooted LogEntry.term a.llog (a.log id))
    {req : AppendEntriesRequest} {L : List LogEntry} (hcut : Cut L req) (hL : Rooted LogEntry.term a.llog L)
    (hback : (back n.log).index = (a.log id).length) (hprev : req.prevLogIndex ≤ (a.log id).length)
    (hlen : req.prevLogIndex ≤ L.length)
    (hterm : ∀ e, n.getLogEntry req.prevLogIndex = some e → e.term = req.prevLogTerm)
    (hends : n.endsIn req = true) : a.log id <+: L := by
  rcases Nat.eq_zero_or_pos (a.log id).length with h0 | hpos
  · rw [List.eq_nil_of_length_eq_zero h0]
    exact List.nil_prefix
  obtain ⟨k, hk⟩ : ∃ k, (a.log id).length = k + 1 := ⟨_, (Nat.succ_pred_eq_of_pos hpos).symm⟩
  have hsnap := h.log.lt_of_back hback hpos
  obtain ⟨hlast, -⟩ := h.log.back_of_lt hsnap
  rw [hk, Nat.add_sub_cancel] at hlast
  -- either way the request's log has an entry of the same term at the last position
  suffices hmatch : ∃ f, L[k]? = some f ∧ (back n.log).term = f.term by
    obtain ⟨f, hf, hft⟩ := hmatch
    have htake := ha.matching hL hlast hf hft
    rw [List.take_of_length_le hk.le] at htake
    rw [htake]
    exact List.take_prefix _ _
  simp only [RaftNode.endsIn, Bool.or_eq_true, decide_eq_true_eq, List.any_eq_true, Bool.and_eq_true] at hends
  rcases hends with hle | ⟨f, hf, hfi, hft⟩
  · have hp : req.prevLogIndex = k + 1 := by omega
    have hfind : n.getLogEntry (k + 1) = some (back n.log) := by
      rw [RaftNode.getLogEntry, h.log.find_succ, if_pos (by omega), hlast]
    obtain ⟨e, hget⟩ : ∃ e, L[k]? = some e := ⟨_, List.getElem?_eq_getElem (by omega)⟩
    refine ⟨e, hget, ?_⟩
    rw [hterm _ (hp ▸ hfind), hcut.prevTerm, hp, termAt_succ hget]
  · rw [hcut.entries] at hf
    obtain ⟨j, hj⟩ := List.mem_iff_getElem?.mp (List.mem_of_mem_drop hf)
    have hnum := hcut.numbered j f hj
    obtain rfl : j = k := by omega
    exact ⟨f, hj, hft.symm⟩

theorem append_drop_of_isPrefix {L M : List LogEntry} (h : L <+: M) : L ++ M.drop L.length = M := by
  obtain ⟨X, rfl⟩ := h
  rw [List.drop_left]

theorem Mirror.stand (h : Mirror peers a c) (hnd : peers.Nodup) (hnil : [] ∉ peers) (hid : id ∈ peers)
    (hp : ProcStep peers id (c.procs id) c.net act p' net')
    (hn : p'.node = (c.node id).becomeCandidate ⟨id, peers⟩) (hnet : net' = c.net) :
    a.Le (a.stand id) ∧ Mirror peers (a.stand id) (c.put id p' net') := by
  have hm := h.node id
  have hne : id ≠ [] := by rintro rfl; exact hnil hid
  have hterm : (a.stand id).term id = (c.node id).currentTerm + 1 := by
    simp [State.stand, State.cast, hm.term]
  refine h.put hnd hnil hp (.single (.stand id)) ⟨fun w hw => ?_, fun w hw => ?_, fun _ _ => rfl⟩ ?_ ?_
    (fun _ ht => ?_) fun q hq => .inl (hnet ▸ hq)
  · simp [State.stand, State.cast, hw]
  · simp [State.stand, State.cast, hw]
  · rw [hn, Ballots.observe, if_neg (by simpa [RaftNode.becomeCandidate, RaftNode.persistState] using hne)]
    simp only [State.stand, State.cast, Ballots.cast, RaftNode.becomeCandidate, RaftNode.persistState, hm.term]
  · rw [hn]
    exact ⟨hterm, by simp [State.stand, State.cast, RaftNode.becomeCandidate, RaftNode.persistState,
      RaftState.role], hm.log, hm.snapTerm⟩
  · rw [hterm, hm.term] at ht
    omega

theorem Mirror.win (h : Mirror peers a c) (hnd : peers.Nodup) (hnil : [] ∉ peers)
    (hp : ProcStep peers id (c.procs id) c.net act p' net') (hstate : (c.node id).state = .candidate)
    (hterm : p'.node.currentTerm = (c.node id).currentTerm) (hvote : p'.node.votedFor = (c.node id).votedFor)
    (hlead : p'.node.state = .leader) (hlog : p'.node.log = (c.node id).log)
    (hsnap : p'.node.snapshotLastIndex = (c.node id).snapshotLastIndex)
    (hsnapTerm : p'.node.snapshotLastTerm = (c.node id).snapshotLastTerm) (hnet : ∀ q ∈ net', q ∈ c.net) :
    a.Le (a.win id) ∧ Mirror peers (a.win id) (c.put id p' net') := by
  have hm := h.node id
  have hobs : Ballots.observe a.vote id p'.node = a.vote := by
    rw [Ballots.observe, hterm, hvote]
    exact observe_self (h.elect.seat id).voted
  obtain ⟨S, hS, hv⟩ := ((h.elect.step hnd hnil hp).2.seat id).leader (by simpa [Cluster.put] using hlead)
  rw [hobs] at hv
  refine h.put hnd hnil hp (.single (.win id ?_ S hS fun w hw => ?_)) ⟨fun _ _ => rfl, fun w hw => ?_, fun _ _ => rfl⟩
    hobs.symm ⟨?_, ?_, ?_, ?_⟩ (fun hr _ => ?_) fun q hq => .inl (hnet q hq)
  · rw [hm.role, hstate]; rfl
  · rw [hm.term, ← hterm]
    simpa [Cluster.put] using hv w hw
  · simp [State.win, hw]
  · rw [hterm]; exact hm.term
  · rw [hlead]; simp [State.win, RaftState.role]
  · rw [hlog, hsnap]; exact hm.log
  · rw [hsnap, hsnapTerm]; exact hm.snapTerm
  · simp [State.win] at hr

theorem Mirror.grant (h : Mirror peers a c) (hnd : peers.Nodup) (hnil : [] ∉ peers) {src : Bytes}
    {req : RequestVoteRequest} (hmem : ⟨src, id, .requestVote req⟩ ∈ c.net)
    (hp : ProcStep peers id (c.procs id) c.net act p' net')
    (hn : p'.node = { (c.node id).catchUp req.term with votedFor := req.candidateId }.persistState)
    (hterm : (c.node id).currentTerm ≤ req.term)
    (hfree : ((c.node id).catchUp req.term).votedFor = [] ∨
      ((c.node id).catchUp req.term).votedFor = req.candidateId)
    (hup : (back (c.node id).log).term < req.lastLogTerm ∨
      req.lastLogTerm = (back (c.node id).log).term ∧ (back (c.node id).log).index ≤ req.lastLogIndex)
    (hcover : (c.node id).covers req = true) (hnet : ∀ q ∈ net', q ∈ c.net ∨ ∀ b, Fair b q) :
    ∃ b, a.Le b ∧ b.log = a.log ∧ b.ack = a.ack ∧ b.commit = a.commit ∧ Mirror peers b (c.put id p' net') := by
  obtain ⟨hsrc, hid, hne, hcand, hbefore, -⟩ := h.elect.sealed _ hmem
  dsimp only at hsrc hid hne hcand hbefore
  have hm := h.node id
  have hs : Steady peers id (c.node id) ((c.node id).catchUp req.term) := .catchUp _ _
  have ht : ((c.node id).catchUp req.term).currentTerm = req.term := by
    rw [RaftNode.catchUp_currentTerm, max_eq_right hterm]
  have hterm' : (settle a id ((c.node id).catchUp req.term)).term id = req.term := by simp [settle, ht]
  have htouch := Touches.settled a id ((c.node id).catchUp req.term)
  suffices hput : a.Le ((settle a id ((c.node id).catchUp req.term)).grant id src) ∧
      Mirror peers ((settle a id ((c.node id).catchUp req.term)).grant id src) (c.put id p' net') from
    ⟨_, hput.1, rfl, rfl, rfl, hput.2⟩
  refine h.put hnd hnil hp (.tail (hm.settle_steps hs) (.grant id src ?_ ?_ ?_))
    ⟨htouch.term, htouch.role, htouch.log⟩ ?_ ⟨?_, ?_, ?_, ?_⟩
    (fun hr _ => ⟨hm.settle_role hs hr, rfl⟩) fun q hq => (hnet q hq).imp_right fun hq => hq _
  · rw [hterm']
    exact h.elect.vote_free hterm (hcand ▸ hfree)
  · rw [hterm', htouch.term src hne, (h.node src).term]
    exact hbefore
  · intro hr htc
    rw [hterm', htouch.term src hne] at htc
    rw [htouch.role src hne] at hr
    exact hm.upToDate (h.fair _ hmem hr htc) hcover hup
  · have hsrc' : src ≠ [] := by rintro rfl; exact hnil hsrc
    have hcur : p'.node.currentTerm = req.term := by rw [hn]; exact ht
    have hfor : p'.node.votedFor = src := by rw [hn]; exact hcand
    rw [Ballots.observe, hcur, hfor, if_neg hsrc', State.grant, hterm']
    rfl
  · rw [hn]; exact hterm'.trans ht.symm
  · rw [hn]; simp [State.grant, State.cast, settle, RaftNode.persistState]
  · rw [hn]
    show Holds ((c.node id).catchUp req.term).log ((c.node id).catchUp req.term).snapshotLastIndex (a.log id)
    rw [RaftNode.catchUp_log, RaftNode.catchUp_snapshotLastIndex]
    exact hm.log
  · rw [hn]
    show ((c.node id).catchUp req.term).snapshotLastTerm =
      termAt (a.log id) ((c.node id).catchUp req.term).snapshotLastIndex
    rw [RaftNode.catchUp_snapshotLastTerm, RaftNode.catchUp_snapshotLastIndex]
    exact hm.snapTerm

theorem fair_reply {net : List Packet} {r s : Packet} (hs : ∀ b, Fair b s) (q : Packet)
    (hq : q ∈ s :: net.erase r) : q ∈ net ∨ ∀ b, Fair b q := by
  rcases List.mem_cons.mp hq with rfl | hq
  · exact .inr hs
  · exact .inl (List.mem_of_mem_erase hq)

/-- A step that leaves the log, the vote and the role of a node as they are, or goes to a later term. -/
theorem Mirror.keep (h : Mirror peers a c) (hnd : peers.Nodup) (hnil : [] ∉ peers)
    (hp : ProcStep peers id (c.procs id) c.net act p' net') (hlog : p'.node.log = (c.node id).log)
    (hsnap : p'.node.snapshotLastIndex = (c.node id).snapshotLastIndex)
    (hsnapTerm : p'.node.snapshotLastTerm = (c.node id).snapshotLastTerm) (hs : Steady peers id (c.node id) p'.node)
    (hnet : ∀ q ∈ net', q ∈ c.net ∨ Fair (settle a id p'.node) q) :
    ∃ b, a.Le b ∧ b.log = a.log ∧ b.ack = a.ack ∧ b.commit = a.commit ∧ Mirror peers b (c.put id p' net') := by
  have hm := h.node id
  obtain ⟨hle, hmir⟩ := h.settled hnd hnil hp hs (by rw [hlog, hsnap]; exact hm.log)
    (by rw [hsnap, hsnapTerm]; exact hm.snapTerm) hnet
  exact ⟨_, hle, rfl, rfl, rfl, hmir⟩

theorem Mirror.lead (h : Mirror peers a c) (hnd : peers.Nodup) (hnil : [] ∉ peers)
    (hp : ProcStep peers id (c.procs id) c.net act p' net') (hlog : p'.node.log = (c.node id).log)
    (hsnap : p'.node.snapshotLastIndex = (c.node id).snapshotLastIndex)
    (hsnapTerm : p'.node.snapshotLastTerm = (c.node id).snapshotLastTerm) (hstate : (c.node id).state = .candidate)
    (n : RaftNode) (hn : p'.node = n.becomeLeader ⟨id, peers⟩) (hterm : n.currentTerm = (c.node id).currentTerm)
    (hv : n.votedFor = (c.node id).votedFor) (hnet : ∀ q ∈ net', q ∈ c.net) :
    ∃ b, a.Le b ∧ b.log = a.log ∧ b.ack = a.ack ∧ b.commit = a.commit ∧ Mirror peers b (c.put id p' net') := by
  have he := hn.trans (RaftNode.becomeLeader_eq _ _)
  obtain ⟨hle, hmir⟩ := h.win hnd hnil hp hstate (by rw [he]; exact hterm) (by rw [he]; exact hv) (by rw [he])
    hlog hsnap hsnapTerm hnet
  exact ⟨_, hle, rfl, rfl, rfl, hmir⟩

theorem Mirror.timer (h : Mirror peers a c) (hnd : peers.Nodup) (hnil : [] ∉ peers) (hid : id ∈ peers)
    (hfree : (c.node id).sending = [])
    (hlog : ((c.procs id).timerStep ⟨id, peers⟩).1.node.log = (c.node id).log)
    (hsnap : ((c.procs id).timerStep ⟨id, peers⟩).1.node.snapshotLastIndex = (c.node id).snapshotLastIndex)
    (hsnapTerm : ((c.procs id).timerStep ⟨id, peers⟩).1.node.snapshotLastTerm = (c.node id).snapshotLastTerm) :
    ∃ b, a.Le b ∧ b.log = a.log ∧ b.ack = a.ack ∧ b.commit = a.commit ∧ Mirror peers b
      (c.put id ((c.procs id).timerStep ⟨id, peers⟩).1 (((c.procs id).timerStep ⟨id, peers⟩).2 ++ c.net)) := by
  have hp : ProcStep peers id (c.procs id) c.net (.timer id) _ _ := .timer hid hfree
  have hsettled := h.keep hnd hnil hp hlog hsnap hsnapTerm
  cases htimer : (c.procs id).timer with
  | idle | tally =>
      simp only [Process.timerStep, htimer] at hsettled ⊢
      exact hsettled (.refl _) fun q hq => .inl hq
  | heartbeats =>
      simp only [Process.timerStep, htimer] at hsettled ⊢
      exact hsettled (.sendHeartbeats _ hid) fun q hq => .inl hq
  | candidacy =>
      obtain ⟨hle, hmir⟩ := h.stand hnd hnil hid hp (by simp only [Process.timerStep, htimer]; rfl)
        (by simp only [Process.timerStep, htimer]; rfl)
      exact ⟨_, hle, rfl, rfl, rfl, hmir⟩
  | election =>
      simp only [Process.timerStep, htimer] at hsettled ⊢
      refine hsettled (.refl _) fun q hq => (List.mem_append.mp hq).symm.imp_right fun hq => ?_
      obtain ⟨peer, -, rfl⟩ := List.mem_map.mp hq
      exact fun _ _ => (h.node id).claims ⟨id, peers⟩
  | leadership =>
      refine h.lead hnd hnil hp hlog hsnap hsnapTerm ((h.elect.seat id).leadership htimer).1 (c.node id) ?_ rfl rfl ?_
      · simp only [Process.timerStep, htimer]
        rfl
      · simp only [Process.timerStep, htimer]
        exact fun q hq => hq

/-- A step that leaves a node's log as it is: the ghost's logs, acknowledgements and commits stay too. -/
theorem Mirror.quiet (h : Mirror peers a c) (hnd : peers.Nodup) (hnil : [] ∉ peers)
    (hp : ProcStep peers id (c.procs id) c.net act p' net') (hlog : p'.node.log = (c.node id).log)
    (hsnap : p'.node.snapshotLastIndex = (c.node id).snapshotLastIndex)
    (hsnapTerm : p'.node.snapshotLastTerm = (c.node id).snapshotLastTerm) (hcrash : noCrash act = true)
    (hsend : sendsAboveSnapshot peers c act = true) (hvote : votesAboveSnapshot c act = true) :
    ∃ b, a.Le b ∧ b.log = a.log ∧ b.ack = a.ack ∧ b.commit = a.commit ∧ Mirror peers b (c.put id p' net') := by
  have hm := h.node id
  have hsettled := h.keep hnd hnil hp hlog hsnap hsnapTerm
  have hwon := h.lead hnd hnil hp hlog hsnap hsnapTerm
  have hold (q : Packet) (hq : q ∈ c.net) : q ∈ c.net ∨ Fair (settle a id p'.node) q := .inl hq
  have hgone (r q : Packet) (hq : q ∈ c.net.erase r) : q ∈ c.net := List.mem_of_mem_erase hq
  have hreply (r s : Packet) (hs : ∀ b, Fair b s) (q : Packet) (hq : q ∈ s :: c.net.erase r) :
      q ∈ c.net ∨ Fair (settle a id p'.node) q := (fair_reply hs q hq).imp_right fun hq => hq _
  cases hp with
  | timer hid hfree => exact h.timer hnd hnil hid hfree hlog hsnap hsnapTerm
  | heartbeat peer rest hpeers =>
      refine hsettled ⟨.inl ⟨rfl, rfl⟩, .inr ⟨rfl, rfl, rfl⟩, fun q hq => .inl ?_⟩ fun q hq => ?_
      · exact hpeers ▸ List.mem_cons_of_mem _ hq
      · rcases List.mem_cons.mp hq with rfl | hq
        · refine .inr ⟨a.log id, ?_, h.inv.matching.log id, fun e he => ?_⟩
          · obtain ⟨j, hj⟩ := (h.stocked id).sending peer (by rw [Cluster.node, hpeers]; exact List.mem_cons_self)
            have hj' : (c.procs id).node.nextIndex peer = some (j + 1) := hj
            refine hm.cut hj ?_
            simpa [sendsAboveSnapshot, Cluster.node, hpeers, RaftNode.heartbeatRequest, hj'] using hsend
          · exact (h.inv.matching.log_le id e he).trans hm.term.le
        · exact .inl hq
  | propose command =>
      have hlen := congrArg List.length hlog
      simp [RaftNode.propose, RaftNode.persistState, Cluster.node] at hlen
  | refuse | wait | capture => exact hsettled (.refl _) hold
  | advance => exact hsettled ((Steady.refl _).advanceCommitIndex _) hold
  | send k expired hid => exact hsettled (.sendHeartbeats _ hid) hold
  | write | trim => exact hsettled ((Steady.refl _).congr rfl rfl rfl rfl rfl) hold
  | requestVote src req hmem hid hfree =>
      have hp := ProcStep.requestVote (p := c.procs id) src req hmem hid hfree
      have ho := RaftNode.handleRequestVote_cases (c.node id) req
      rw [votesAboveSnapshot] at hvote
      simp only [Cluster.node] at ho hsettled hp ⊢
      generalize hr : (c.procs id).node.handleRequestVote req = r at ho hsettled hreply hp ⊢
      cases ho with
      | stale => exact hsettled (.refl _) (hreply _ _ fun _ => trivial)
      | refuse => exact hsettled (.catchUp _ _) (hreply _ _ fun _ => trivial)
      | grant hterm hfree hup =>
          have hcan : ((c.node id).catchUp req.term).canVote req = true := by
            rw [RaftNode.canVote, decide_eq_true_eq, RaftNode.catchUp_log]
            exact ⟨hfree, hup⟩
          refine h.grant hnd hnil hmem hp rfl hterm hfree hup (of_decide_eq_true hvote ?_)
            (fair_reply fun _ => trivial)
          rw [hcan, Bool.and_true]
          exact decide_eq_true hterm
  | requestVoteResponse src resp hmem hid hfree =>
      have hp := ProcStep.requestVoteResponse (p := c.procs id) src resp hmem hid hfree
      have ho := RaftNode.handleRequestVoteResponse_cases ⟨id, peers⟩ (c.node id) resp
      simp only [Cluster.node] at ho hsettled hwon hp ⊢
      generalize (c.procs id).node.handleRequestVoteResponse ⟨id, peers⟩ resp = r at ho hsettled hwon hp ⊢
      cases ho with
      | adopt ht => exact hsettled (.adoptTerm ht) fun q hq => .inl (hgone _ q hq)
      | ignore => exact hsettled (.refl _) fun q hq => .inl (hgone _ q hq)
      | count =>
          obtain ⟨hle, hmir⟩ := h.put hnd hnil hp .refl (.refl id a) (observe_self (h.elect.seat id).voted).symm
            ⟨hm.term, hm.role, hm.log, hm.snapTerm⟩ (fun hr _ => ⟨hr, rfl⟩) fun q hq => .inl (hgone _ q hq)
          exact ⟨_, hle, rfl, rfl, rfl, hmir⟩
      | win hterm hstate => exact hwon hstate _ rfl rfl rfl (hgone _)
  | appendEntries src req hmem hid hfree n hn =>
      exact hsettled (.handleAppendEntries hn) (hreply _ _ fun _ => trivial)
  | appendEntriesResponse src resp hmem =>
      exact hsettled (.handleAppendEntriesResponse _ _ _ _) fun q hq => .inl (hgone _ q hq)
  | installSnapshot src req hmem => exact (h.fair _ hmem).elim
  | installSnapshotResponse src resp hmem => exact hsettled (.refl _) fun q hq => .inl (hgone _ q hq)
  | lose packet hmem => exact hsettled (.refl _) fun q hq => .inl (hgone _ q hq)
  | restart | crashHandling => cases hcrash

theorem Mirror.propose (h : Mirror peers a c) (hnd : peers.Nodup) (hnil : [] ∉ peers) {command : Bytes}
    (hp : ProcStep peers id (c.procs id) c.net act p' net')
    (hn : p'.node = ((c.node id).propose ⟨id, peers⟩ command).1) (hnet : net' = c.net)
    (hstate : (c.node id).state = .leader) (hback : (back (c.node id).log).index = (a.log id).length) :
    let e : LogEntry := ⟨(c.node id).currentTerm, (a.log id).length + 1, command⟩
    ∃ b, a.Le b ∧ b.log = Function.update a.log id (a.log id ++ [e]) ∧ b.ack = a.ack ∧ b.commit = a.commit ∧
      Mirror peers b (c.put id p' net') := by
  intro e
  have hm := h.node id
  have hrole : a.role id = .leader := by rw [hm.role, hstate]; rfl
  suffices hput : a.Le (a.propose id e) ∧ Mirror peers (a.propose id e) (c.put id p' net') from
    ⟨_, hput.1, rfl, rfl, rfl, hput.2⟩
  refine h.put hnd hnil hp (.single (.propose id e hrole hm.term.symm))
    ⟨fun _ _ => rfl, fun _ _ => rfl, fun w hw => by simp [State.propose, hw]⟩ ?_ ?_ (fun hr _ => ?_)
    fun q hq => .inl (hnet ▸ hq)
  · rw [hn]
    exact (observe_self (h.elect.seat id).voted).symm
  · rw [hn]
    refine ⟨hm.term, hm.role, ?_, ?_⟩
    · have hlog : (a.propose id e).log id = a.log id ++ [e] := by simp [State.propose]
      rw [hlog]
      have := hm.log.append_one (e := e) rfl
      simpa [RaftNode.propose, RaftNode.persistState, hback] using this
    · have hlog : (a.propose id e).log id = a.log id ++ [e] := by simp [State.propose]
      rw [hlog]
      exact hm.snapTerm.trans (termAt_of_isPrefix (List.prefix_append _ _) hm.log.le)
  · have hr' : a.role id = .candidate := hr
    rw [hrole] at hr'
    cases hr'

theorem Mirror.truncate (h : Mirror peers a c) (hnd : peers.Nodup) (hnil : [] ∉ peers) {leader : Bytes}
    {req : AppendEntriesRequest} {k m : Nat} {log : List LogEntry}
    (hp : ProcStep peers id (c.procs id) c.net act p' net')
    (hsteady : Steady peers id (c.node id) p'.node)
    (hn : p'.node = ({ (c.node id).follow leader req.term with log := log }.reject m).persistState)
    (hlog : Holds log (c.node id).snapshotLastIndex ((a.log id).take k))
    (hk : (c.node id).snapshotLastIndex ≤ k)
    (hwhy : (∀ t, a.ack id t = 0) ∨ (settle a id ((c.node id).follow leader req.term)).Conflict id k)
    (hnet : ∀ q ∈ net', q ∈ c.net ∨ ∀ b, Fair b q) :
    ∃ b, a.Le b ∧ b.log = Function.update a.log id ((a.log id).take k) ∧ b.ack = a.ack ∧
      b.commit = a.commit ∧ Mirror peers b (c.put id p' net') := by
  have hm := h.node id
  have htouch := Touches.settled a id ((c.node id).follow leader req.term)
  have hlog' : ((settle a id ((c.node id).follow leader req.term)).truncate id k).log =
      Function.update a.log id ((a.log id).take k) := rfl
  suffices hput : a.Le ((settle a id ((c.node id).follow leader req.term)).truncate id k) ∧
      Mirror peers ((settle a id ((c.node id).follow leader req.term)).truncate id k) (c.put id p' net') from
    ⟨_, hput.1, hlog', rfl, rfl, hput.2⟩
  refine h.put hnd hnil hp (.tail (hm.settle_steps (.follow _ leader req.term)) (.truncate id k ?_ hwhy))
    ⟨htouch.term, htouch.role, fun w hw => by rw [hlog']; simp [hw]⟩
    (hsteady.observe (h.elect.seat id).voted).symm ⟨?_, ?_, ?_, ?_⟩ (fun hr _ => ?_)
    fun q hq => (hnet q hq).imp_right fun hq => hq _
  · simp [settle, RaftNode.follow, RaftState.role]
  · rw [hn]; simp [settle, State.truncate, RaftNode.persistState, RaftNode.reject]
  · rw [hn]; simp [settle, State.truncate, RaftNode.persistState, RaftNode.reject]
  · rw [hlog', hn, Function.update_self]
    show Holds log ((c.node id).catchUp req.term).snapshotLastIndex _
    rwa [RaftNode.catchUp_snapshotLastIndex]
  · rw [hlog', hn, Function.update_self]
    show ((c.node id).catchUp req.term).snapshotLastTerm =
      termAt _ ((c.node id).catchUp req.term).snapshotLastIndex
    have hle := hm.log.le
    rw [RaftNode.catchUp_snapshotLastTerm, RaftNode.catchUp_snapshotLastIndex, hm.snapTerm,
      termAt_of_isPrefix (List.take_prefix k (a.log id)) (by rw [List.length_take]; omega)]
  · simp [State.truncate, settle, RaftNode.follow, RaftState.role] at hr

theorem Mirror.accept (h : Mirror peers a c) (hnd : peers.Nodup) (hnil : [] ∉ peers) {leader : Bytes}
    {req : AppendEntriesRequest} {L : List LogEntry} (hcut : Cut L req) (hterm : ∀ e ∈ L, e.term ≤ req.term)
    (hp : ProcStep peers id (c.procs id) c.net act p' net')
    (hsteady : Steady peers id (c.node id) p'.node)
    (hn : p'.node = ((c.node id).follow leader req.term).acceptEntries req)
    (hcur : (c.node id).currentTerm ≤ req.term)
    (hback : (back (c.node id).log).index = (a.log id).length) (hprev : req.prevLogIndex ≤ (a.log id).length)
    (hroot : Rooted LogEntry.term a.llog (a.log id ++ L.drop (a.log id).length))
    (hnet : ∀ q ∈ net', q ∈ c.net ∨ ∀ b, Fair b q) :
    ∃ b, a.Le b ∧ b.log = Function.update a.log id (a.log id ++ L.drop (a.log id).length) ∧ b.ack = a.ack ∧
      b.commit = a.commit ∧ (back p'.node.log).index = (b.log id).length ∧
      Mirror peers b (c.put id p' net') := by
  have hm := h.node id
  have htouch := Touches.settled a id ((c.node id).follow leader req.term)
  have hlog' : ((settle a id ((c.node id).follow leader req.term)).extend id (L.drop (a.log id).length)).log =
      Function.update a.log id (a.log id ++ L.drop (a.log id).length) := rfl
  have hdrop : req.entries.drop ((a.log id).length - req.prevLogIndex) = L.drop (a.log id).length := by
    rw [hcut.entries, List.drop_drop, Nat.add_sub_cancel' hprev]
  have hnum := hcut.numbered.drop req.prevLogIndex
  rw [Nat.zero_add, ← hcut.entries] at hnum
  obtain ⟨hholds, hend⟩ := hm.log.appendNew hback hnum hprev
  rw [hdrop] at hholds hend
  have hft : ((c.node id).follow leader req.term).currentTerm = req.term :=
    (RaftNode.catchUp_currentTerm _).trans (max_eq_right hcur)
  have hfield {α : Type} (f : RaftNode → α) (hf : ∀ (m : RaftNode) i j u r,
      f { m with commitIndex := i, lastApplied := j, upper := u, aeResp := r } = f m) :
      f p'.node = f (((c.node id).follow leader req.term).storeEntries req.entries) := by
    rw [hn]
    exact RaftNode.acceptEntries_field f hf _ req
  have hnlog : p'.node.log = RaftNode.appendNew (c.node id).log req.entries := by
    rw [hn, RaftNode.acceptEntries_log, RaftNode.follow_log]
  have hnterm : p'.node.currentTerm = ((c.node id).follow leader req.term).currentTerm :=
    hfield RaftNode.currentTerm fun _ _ _ _ _ => rfl
  have hnstate : p'.node.state = .follower := hfield RaftNode.state fun _ _ _ _ _ => rfl
  have hnsnap : p'.node.snapshotLastIndex = (c.node id).snapshotLastIndex :=
    (hfield RaftNode.snapshotLastIndex fun _ _ _ _ _ => rfl).trans (RaftNode.catchUp_snapshotLastIndex _)
  have hnsnapTerm : p'.node.snapshotLastTerm = (c.node id).snapshotLastTerm :=
    (hfield RaftNode.snapshotLastTerm fun _ _ _ _ _ => rfl).trans (RaftNode.catchUp_snapshotLastTerm _)
  suffices hput : a.Le ((settle a id ((c.node id).follow leader req.term)).extend id (L.drop (a.log id).length)) ∧
      Mirror peers ((settle a id ((c.node id).follow leader req.term)).extend id (L.drop (a.log id).length))
        (c.put id p' net') from
    ⟨_, hput.1, hlog', rfl, rfl, by rw [hlog', hnlog, Function.update_self]; exact hend, hput.2⟩
  refine h.put hnd hnil hp (.tail (hm.settle_steps (.follow _ leader req.term))
    (.extend id _ ?_ hroot fun e he => ?_)) ⟨htouch.term, htouch.role, fun w hw => by rw [hlog']; simp [hw]⟩
    (hsteady.observe (h.elect.seat id).voted).symm ⟨?_, ?_, ?_, ?_⟩ (fun hr _ => ?_)
    fun q hq => (hnet q hq).imp_right fun hq => hq _
  · simp [settle, RaftNode.follow, RaftState.role]
  · simpa [settle, hft] using hterm e (List.mem_of_mem_drop he)
  · rw [hnterm]; simp [settle, State.extend]
  · rw [hnstate]; simp [settle, State.extend, RaftNode.follow]
  · rw [hlog', hnlog, hnsnap, Function.update_self]
    exact hholds
  · rw [hlog', hnsnap, hnsnapTerm, Function.update_self, ← termAt_of_isPrefix (List.prefix_append _ _) hm.log.le]
    exact hm.snapTerm
  · simp [State.extend, settle, RaftNode.follow, RaftState.role] at hr

/-- Where a request disagrees with a follower's log: at an entry, never at the sentinel or below the snapshot. -/
theorem Mirrors.conflict (h : Mirrors a id n) {req : AppendEntriesRequest} {L : List LogEntry} {e : LogEntry}
    (hcut : Cut L req) (he : n.getLogEntry req.prevLogIndex = some e) (hne : e.term ≠ req.prevLogTerm) :
    ∃ k, req.prevLogIndex = k + 1 ∧ n.snapshotLastIndex ≤ k ∧ (a.log id)[k]? = some e := by
  rw [RaftNode.getLogEntry] at he
  cases hp : req.prevLogIndex with
  | zero =>
      rw [hp, h.log.find_zero] at he
      rw [hcut.prevTerm, hp] at hne
      cases he
      exact absurd rfl hne
  | succ k =>
      rw [hp, h.log.find_succ] at he
      split at he
      · next hs => exact ⟨k, rfl, hs, he⟩
      · cases he

theorem Mirrors.truncation (h : Mirrors a id n) {req : AppendEntriesRequest} {L log : List LogEntry}
    {e : LogEntry} (hcut : Cut L req) (he : n.getLogEntry req.prevLogIndex = some e)
    (hne : e.term ≠ req.prevLogTerm) (hlog : RaftNode.popFrom n.log req.prevLogIndex = some log) :
    ∃ k, req.prevLogIndex = k + 1 ∧ n.snapshotLastIndex ≤ k ∧ (a.log id)[k]? = some e ∧
      Holds log n.snapshotLastIndex ((a.log id).take k) := by
  obtain ⟨k, hk, hs, hek⟩ := h.conflict hcut he hne
  obtain ⟨log', hpop, hholds⟩ := h.log.pop hs (List.getElem?_eq_some_iff.mp hek).1.le
  rw [hk, hpop] at hlog
  cases hlog
  exact ⟨k, hk, hs, hek, hholds⟩

end MiniStorage.Raft
