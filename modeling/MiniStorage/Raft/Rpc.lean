import MiniStorage.Net.Call
import MiniStorage.Raft.Safety
import Mathlib.Data.List.Flatten

namespace MiniStorage.Raft

open Namenode (Wire)
open Net (Outcome)
open Runs

def RaftMessage.isRequest : RaftMessage → Bool
  | .requestVote _ | .appendEntries _ | .installSnapshot _ => true
  | .requestVoteResponse _ | .appendEntriesResponse _ | .installSnapshotResponse _ => false

/-- A call of SendMessage and the connection it has opened. `handled` counts the calls of OnMessage there. -/
structure RpcCall where
  src : Bytes
  dst : Bytes
  msg : RaftMessage
  io : Net.Call
  handled : Nat := 0
  /-- SendMessage has returned, or its process has stopped. -/
  closed : Bool := false
  /-- The process at the other end has stopped. -/
  gone : Bool := false

/-- The nodes and the connections between their RaftRPCs. -/
structure RpcCluster where
  procs : Bytes → Process
  calls : List RpcCall

inductive RpcAction
  /-- What a node does by itself. -/
  | node (act : Action)
  /-- A system call on a connection, or a turn of ProcessMessages. -/
  | io (k : Nat) (a : Net.CallAction)
  /-- OnMessage, with what write says when the reply is sent. -/
  | onMessage (k : Nat) (res : Outcome)
  /-- SendMessage returns. -/
  | finish (k : Nat)

namespace RpcCall

/-- A call makes the system calls that are possible. -/
def move (io : Net.Call) (a : Net.CallAction) : Option Net.Call := if io.Possible a then io.step a else none

/-- Whose threads make the system call, and that they are there. -/
def runs (call : RpcCall) : Net.CallAction → Bool
  | .clientWrite _ | .clientRead _ => !call.closed
  | .handleRead _ | .processMessage | .handleWrite _ => !call.gone
  | .send _ _ => false

def stop (id : Bytes) (call : RpcCall) : RpcCall :=
  { call with closed := call.closed || call.src = id, gone := call.gone || call.dst = id }

end RpcCall

/-- A process that stops leaves its ends of the connections. -/
def stopped (act : Action) (calls : List RpcCall) : List RpcCall :=
  match act with
  | .restart id => calls.map (RpcCall.stop id)
  | _ => calls

section

variable (w : Wire RaftMessage) (peers : List Bytes)

/-- SendMessage of a request up to its first write. Whether connect succeeds is up to the network. -/
def sendMessage (p : Packet) : Option RpcCall :=
  if p.dst.contains 58 then (w.serialize p.msg).map fun data => ⟨p.src, p.dst, p.msg, .start data, 0, false, false⟩ else none

/-- The end of OnMessage. -/
def RpcCall.respond (call : RpcCall) (reply : Option RaftMessage) (res : Outcome) : Option RpcCall :=
  match reply.bind w.serialize with
  | none => some { call with handled := call.handled + 1 }
  | some data => (RpcCall.move call.io (.send data res)).map fun io => { call with io, handled := call.handled + 1 }

/-- The response that SendMessage hands to its node. -/
def RpcCall.response (call : RpcCall) : Option RaftMessage :=
  match call.io.client.returned.join.bind w.parse with
  | some (.requestVoteResponse resp) => some (.requestVoteResponse resp)
  | some (.appendEntriesResponse resp) => some (.appendEntriesResponse resp)
  | _ => none

namespace RpcCluster

def start : RpcCluster := ⟨fun _ => { node := RaftNode.start none none }, []⟩

/-- A handler of the node `id`, once it has the mutex. -/
def hand (s : RpcCluster) (id src : Bytes) (msg : RaftMessage) : Option ((Bytes → Process) × Option RaftMessage) :=
  let p := s.procs id
  if id ∈ peers ∧ free p.node msg then
    (Process.handle ⟨id, peers⟩ p.node src msg).map fun (node, reply) =>
      (Function.update s.procs id { p with node }, reply)
  else none

def step (s : RpcCluster) : RpcAction → Option RpcCluster
  | .node act => (Raft.step peers ⟨s.procs, []⟩ act).map fun c =>
      ⟨c.procs, stopped act s.calls ++ c.net.filterMap (sendMessage w)⟩
  | .io k a =>
      match s.calls[k]? with
      | none => none
      | some call =>
          if call.runs a then
            (RpcCall.move call.io a).map fun io => { s with calls := s.calls.set k { call with io } }
          else none
  | .onMessage k res =>
      match s.calls[k]? with
      | none => none
      | some call =>
          match call.gone, call.io.delivered[call.handled]? with
          | false, some data =>
              match w.parse data with
              | none => some { s with calls := s.calls.set k { call with handled := call.handled + 1 } }
              | some msg =>
                  match s.hand peers call.dst [] msg with
                  | none => none
                  | some (procs, reply) => (call.respond w reply res).map fun call => ⟨procs, s.calls.set k call⟩
          | _, _ => none
  | .finish k =>
      match s.calls[k]? with
      | none => none
      | some call =>
          if !call.closed && call.io.client.returned.isSome then
            let calls := s.calls.set k { call with closed := true }
            match call.response w with
            | none => some { s with calls }
            | some msg => (s.hand peers call.src call.dst msg).map fun r => ⟨r.1, calls⟩
          else none

/-- The step of the node that is part of the action. -/
def performs (s : RpcCluster) : RpcAction → Option Action
  | .node act => some act
  | .io _ _ => none
  | .onMessage k _ => do
      let call ← s.calls[k]?
      let msg ← call.io.delivered[call.handled]?.bind w.parse
      some (.deliver ⟨call.src, call.dst, msg⟩)
  | .finish k => do
      let call ← s.calls[k]?
      let msg ← call.response w
      some (.deliver ⟨call.dst, call.src, msg⟩)

end RpcCluster

end

/-! Three nodes at host and port -/

namespace RpcTrio

def a : Bytes := [97, 58, 49]
def b : Bytes := [98, 58, 50]
def c : Bytes := [99, 58, 51]
def peers : List Bytes := [a, b, c]

def rows : List (RaftMessage × Bytes) :=
  [(.requestVote ⟨1, a, 0, 0⟩, [0x52, 7, 8, 1, 0x12, 3, 97, 58, 49]),
    (.requestVoteResponse ⟨1, true⟩, [8, 1, 0x5a, 4, 8, 1, 0x10, 1]),
    (.appendEntries ⟨1, a, 0, 0, [], 0⟩, [8, 2, 0x62, 7, 8, 1, 0x12, 3, 97, 58, 49]),
    (.appendEntries ⟨1, a, 0, 0, [⟨1, 1, [1]⟩], 0⟩,
      [8, 2, 0x62, 16, 8, 1, 0x12, 3, 97, 58, 49, 0x2a, 7, 8, 1, 0x10, 1, 0x1a, 1, 1]),
    (.appendEntriesResponse ⟨1, true, 1⟩, [8, 3, 0x6a, 6, 8, 1, 0x10, 1, 0x18, 1]),
    (.appendEntries ⟨1, a, 1, 1, [], 1⟩, [8, 2, 0x62, 13, 8, 1, 0x12, 3, 97, 58, 49, 0x18, 1, 0x20, 1, 0x30, 1]),
    (.appendEntries ⟨1, a, 0, 0, [⟨1, 1, [1]⟩], 1⟩,
      [8, 2, 0x62, 18, 8, 1, 0x12, 3, 97, 58, 49, 0x2a, 7, 8, 1, 0x10, 1, 0x1a, 1, 1, 0x30, 1])]

/-- A request of `n` bytes arrives in two pieces, and its reply of `m` bytes in three. -/
def exchange (k n m : Nat) : List RpcAction :=
  [.io k (.clientWrite (.count 4)), .io k (.clientWrite (.count n)), .io k (.handleRead (.count 3)),
    .io k .processMessage, .io k (.handleRead (.count (n + 1))), .io k .processMessage, .onMessage k (.count 2),
    .io k .processMessage, .io k (.clientRead (.count 2)), .io k (.handleWrite (.count (m + 2))),
    .io k (.clientRead (.count 2)), .io k (.clientRead (.count m)), .finish k]

def election : List RpcAction :=
  [.node (.timer a), .node (.timer a), .node (.timer a)] ++ exchange 0 9 8 ++
    [.node (.heartbeat a), .node (.heartbeat a), .node (.timer a)]

def commit : List RpcAction :=
  [.node (.propose a [1]), .node (.timer a), .node (.timer a), .node (.heartbeat a), .node (.heartbeat a)] ++
    exchange 4 20 10 ++
    [.node (.timer a), .node (.timer a), .node (.heartbeat a), .node (.heartbeat a)] ++ (exchange 6 17 10).take 7

end RpcTrio

/-! Protobuf -/

/-- What SerializeToString gives is no longer than protobuf allows and is parsed as the message it was made of. -/
def Faithful (w : Wire RaftMessage) : Prop :=
  ∀ msg data, w.serialize msg = some data → data.length < 2 ^ 31 ∧ w.parse data = some msg

variable {w : Wire RaftMessage} {peers : List Bytes} {procs : Bytes → Process} {s t : RpcCluster} {c : Cluster}
  {call : RpcCall} {act : Action} {acts : List RpcAction} {a : RpcAction} {msg : RaftMessage} {data : Bytes} {k : Nat}
  {p : Packet} {m : Bytes}

/-! The nodes alone -/

/-- What a node does by itself is not affected by what is in flight. -/
theorem step_frame (h : step peers ⟨procs, []⟩ act = some c) (net : List Packet) :
    step peers ⟨procs, net⟩ act = some ⟨c.procs, c.net ++ net⟩ := by
  cases act with
  | timer id =>
      simp only [step, Option.ite_none_right_eq_some] at h ⊢
      obtain ⟨hid, h⟩ := h
      obtain rfl := Option.some.inj h
      refine ⟨hid, ?_⟩
      simp only [Cluster.put, List.append_nil]
  | heartbeat id =>
      simp only [step] at h ⊢
      split at h
      next => cases h
      next peer rest hsending =>
        obtain rfl := Option.some.inj h
        rfl
  | propose id command =>
      simp only [step, Option.ite_none_right_eq_some] at h ⊢
      obtain ⟨hid, h⟩ := h
      obtain rfl := Option.some.inj h
      exact ⟨hid, rfl⟩
  | proposeNext id call expired =>
      simp only [step, Option.ite_none_right_eq_some, Option.map_eq_some_iff] at h ⊢
      obtain ⟨hid, p, hp, rfl⟩ := h
      exact ⟨hid, p, hp, rfl⟩
  | snapshot id data =>
      simp only [step, Option.ite_none_right_eq_some, Option.map_eq_some_iff] at h ⊢
      obtain ⟨hid, p, hp, rfl⟩ := h
      exact ⟨hid, p, hp, rfl⟩
  | restart id =>
      simp only [step, Option.ite_none_right_eq_some] at h ⊢
      obtain ⟨hid, h⟩ := h
      obtain rfl := Option.some.inj h
      exact ⟨hid, rfl⟩
  | deliver p | lose p | crashHandling p => simp [step] at h

/-- RaftNode sends nothing but requests by itself. -/
theorem isRequest_of_step (h : step peers ⟨procs, []⟩ act = some c) : ∀ p ∈ c.net, p.msg.isRequest = true := by
  cases act with
  | timer id =>
      simp only [step, Option.ite_none_right_eq_some] at h
      obtain rfl := Option.some.inj h.2
      intro p hp
      simp only [Cluster.put, Process.timerStep, List.append_nil] at hp
      split at hp
      case h_4 =>
        obtain ⟨peer, -, rfl⟩ := List.mem_map.mp hp
        rfl
      all_goals cases hp
  | heartbeat id =>
      simp only [step] at h
      split at h
      next => cases h
      next peer rest hsending =>
        obtain rfl := Option.some.inj h
        intro p hp
        obtain rfl := List.mem_singleton.mp hp
        rfl
  | propose id command | restart id =>
      simp only [step, Option.ite_none_right_eq_some] at h
      obtain rfl := Option.some.inj h.2
      exact fun p hp => absurd hp List.not_mem_nil
  | proposeNext id call expired | snapshot id data =>
      simp only [step, Option.ite_none_right_eq_some, Option.map_eq_some_iff] at h
      obtain ⟨-, p, -, rfl⟩ := h
      exact fun p hp => absurd hp List.not_mem_nil
  | deliver p | lose p | crashHandling p => simp [step] at h

/-- Whose reply it is matters for replies only. -/
theorem handle_isRequest (h : msg.isRequest = true) (cfg : RaftConfig) (n : RaftNode) (src src' : Bytes) :
    Process.handle cfg n src msg = Process.handle cfg n src' msg := by
  cases msg with
  | requestVote req | appendEntries req | installSnapshot req => rfl
  | requestVoteResponse resp | appendEntriesResponse resp | installSnapshotResponse resp => cases h

namespace RpcCall

/-- The stream of the connection carries the request, and its end has been handled once at most. -/
structure Sound (w : Wire RaftMessage) (call : RpcCall) (data : Bytes) : Prop where
  bytes : w.serialize call.msg = some data
  io : Net.Call.Sound data call.io
  request : call.msg.isRequest = true
  answers : call.io.replies.length ≤ call.handled
  handled : call.handled ≤ call.io.delivered.length

/-- What is still to be handled at one of the two ends. -/
def packets (w : Wire RaftMessage) (call : RpcCall) : List Packet :=
  if call.handled = 0 then [⟨call.src, call.dst, call.msg⟩]
  else if call.closed then []
  else (call.io.replies.filterMap w.parse).map (Packet.mk call.dst call.src)

theorem Sound.fits (h : call.Sound w data) (hw : Faithful w) : Net.Fits data := by
  have hlen := (hw _ _ h.bytes).1
  rw [Net.Fits]
  omega

/-- OnMessage is run on the request, before there is a reply. -/
theorem Sound.delivered (h : call.Sound w data) (hread : call.io.delivered[call.handled]? = some m) :
    call.handled = 0 ∧ m = data ∧ call.io.delivered = [data] ∧ call.io.replies = [] := by
  rcases h.io.out with ⟨hnone, -⟩ | ⟨hone, -⟩
  · rw [hnone] at hread
    cases hread
  · have hlt : call.handled < 1 := by
      have hlt := (List.getElem?_eq_some_iff.mp hread).1
      rwa [hone] at hlt
    have hzero : call.handled = 0 := by omega
    have hanswers := h.answers
    rw [hzero] at hread hanswers
    rw [hone] at hread
    exact ⟨hzero, (Option.some.inj hread).symm, hone, List.length_eq_zero_iff.mp (Nat.le_zero.mp hanswers)⟩

theorem move_runs {io : Net.Call} {e : Net.CallAction} (hruns : call.runs e = true) (h : move call.io e = some io) :
    call.io.Possible e ∧ call.io.step e = some io ∧ io.replies = call.io.replies ∧
      call.io.delivered.length ≤ io.delivered.length := by
  rw [move, Option.ite_none_right_eq_some] at h
  obtain ⟨hpossible, h⟩ := h
  refine ⟨hpossible, h, ?_⟩
  cases e with
  | send reply res => cases hruns
  | clientWrite res | handleRead res | handleWrite res | clientRead res =>
      rw [Net.Call.step, Option.ite_none_right_eq_some] at h
      obtain rfl := Option.some.inj h.2
      exact ⟨rfl, Nat.le_refl _⟩
  | processMessage =>
      rw [Net.Call.step, Option.ite_none_right_eq_some] at h
      obtain ⟨-, h⟩ := h
      split at h
      · obtain rfl := Option.some.inj h
        exact ⟨rfl, Nat.le_refl _⟩
      · obtain rfl := Option.some.inj h
        exact ⟨rfl, by simp⟩

theorem Sound.move {io : Net.Call} {e : Net.CallAction} (h : call.Sound w data) (hw : Faithful w)
    (hruns : call.runs e = true) (hm : move call.io e = some io) :
    ({ call with io } : RpcCall).Sound w data ∧
      ({ call with io } : RpcCall).packets w = call.packets w := by
  obtain ⟨hpossible, hs, hreplies, hdelivered⟩ := move_runs hruns hm
  refine ⟨⟨h.bytes, h.io.step (h.fits hw) hpossible hs, h.request, ?_, h.handled.trans hdelivered⟩, ?_⟩
  · simpa only [hreplies] using h.answers
  · simp only [packets, hreplies]

/-- OnMessage leaves its reply in flight, or nothing. -/
theorem Sound.respond {call' : RpcCall} {reply : Option RaftMessage} {res : Outcome} (h : call.Sound w data)
    (hw : Faithful w) (hread : call.io.delivered[call.handled]? = some m)
    (hr : call.respond w reply res = some call') :
    call'.Sound w data ∧ (call'.packets w).Sublist (reply.map (Packet.mk call.dst call.src)).toList := by
  obtain ⟨hzero, -, hdelivered, hreplies⟩ := h.delivered hread
  rw [RpcCall.respond] at hr
  cases hbytes : reply.bind w.serialize with
  | none =>
      rw [hbytes] at hr
      obtain rfl := Option.some.inj hr
      refine ⟨⟨h.bytes, h.io, h.request, h.answers.trans (Nat.le_succ _), ?_⟩, ?_⟩
      · rw [hzero, hdelivered]
        exact Nat.le_refl 1
      · simp [packets, hreplies]
  | some bytes =>
      rw [hbytes] at hr
      obtain ⟨io, hm, rfl⟩ := Option.map_eq_some_iff.mp hr
      obtain ⟨made, rfl, hmade⟩ := Option.bind_eq_some_iff.mp hbytes
      rw [RpcCall.move, Option.ite_none_right_eq_some] at hm
      obtain ⟨hpossible, hs⟩ := hm
      have hio := h.io.step (h.fits hw) hpossible hs
      rw [Net.Call.step, Option.ite_none_right_eq_some] at hs
      obtain rfl := Option.some.inj hs.2
      refine ⟨⟨h.bytes, hio, h.request, ?_, ?_⟩, ?_⟩
      · rw [hzero, hreplies]
        exact Nat.le_refl 1
      · rw [hzero, hdelivered]
        exact Nat.le_refl 1
      · rw [packets, if_neg (Nat.succ_ne_zero _)]
        split
        · exact List.nil_sublist _
        · simp [hreplies, (hw _ _ hmade).2]

/-- SendMessage hands on a message that was in flight to it. -/
theorem Sound.response (h : call.Sound w data) (hclosed : call.closed = false) (hr : call.response w = some msg) :
    call.packets w = [⟨call.dst, call.src, msg⟩] ∧ ({ call with closed := true } : RpcCall).packets w = [] := by
  have hparsed : ∃ bytes, call.io.client.returned = some (some bytes) ∧ w.parse bytes = some msg := by
    rw [RpcCall.response] at hr
    split at hr
    next resp hresp =>
      obtain rfl := Option.some.inj hr
      obtain ⟨bytes, hjoin, hbytes⟩ := Option.bind_eq_some_iff.mp hresp
      exact ⟨bytes, Option.join_eq_some_iff.mp hjoin, hbytes⟩
    next resp hresp =>
      obtain rfl := Option.some.inj hr
      obtain ⟨bytes, hjoin, hbytes⟩ := Option.bind_eq_some_iff.mp hresp
      exact ⟨bytes, Option.join_eq_some_iff.mp hjoin, hbytes⟩
    next => cases hr
  obtain ⟨bytes, hreturned, hbytes⟩ := hparsed
  obtain ⟨hdelivered, hreplies⟩ := h.io.returned hreturned
  have hhandled : call.handled ≠ 0 := by
    have hanswers := h.answers
    rw [hreplies, List.length_singleton] at hanswers
    omega
  refine ⟨?_, ?_⟩
  · simp [packets, hhandled, hclosed, hreplies, hbytes]
  · simp [packets, hhandled]

theorem packets_close (call : RpcCall) :
    (({ call with closed := true } : RpcCall).packets w).Sublist (call.packets w) := by
  by_cases hzero : call.handled = 0 <;> simp [packets, hzero]

theorem packets_stop (id : Bytes) (call : RpcCall) : ((call.stop id).packets w).Sublist (call.packets w) := by
  by_cases hsrc : call.src = id
  · simpa [stop, hsrc, packets] using call.packets_close
  · simp [stop, hsrc, packets]

theorem Sound.stop (h : call.Sound w data) (id : Bytes) : (call.stop id).Sound w data :=
  ⟨h.bytes, h.io, h.request, h.answers, h.handled⟩

theorem of_sendMessage (hw : Faithful w) (hp : p.msg.isRequest = true) (h : sendMessage w p = some call) :
    (∃ data, call.Sound w data) ∧ call.packets w = [p] := by
  rw [sendMessage, Option.ite_none_right_eq_some] at h
  obtain ⟨-, data, hdata, rfl⟩ := h.imp_right Option.map_eq_some_iff.mp
  have hlen := (hw _ _ hdata).1
  exact ⟨⟨data, hdata, Net.Call.sound_start (by omega), hp, Nat.le_refl 0, Nat.zero_le _⟩, rfl⟩

end RpcCall

namespace RpcCluster

def pending (w : Wire RaftMessage) (calls : List RpcCall) : List Packet := calls.flatMap (RpcCall.packets w)

theorem pending_set {calls : List RpcCall} (h : calls[k]? = some call) (call' : RpcCall) :
    (pending w (calls.set k call')).Perm (call'.packets w ++ pending w (calls.eraseIdx k)) :=
  (List.set_perm_cons_eraseIdx (List.getElem?_eq_some_iff.mp h).1 call').flatMap_right _

theorem pending_get {calls : List RpcCall} (h : calls[k]? = some call) :
    (pending w calls).Perm (call.packets w ++ pending w (calls.eraseIdx k)) := by
  have hset := pending_set (w := w) h call
  obtain ⟨hlt, rfl⟩ := List.getElem?_eq_some_iff.mp h
  rwa [List.set_getElem_self] at hset

/-- The processes are the same, and what is still to be handled on the connections is in flight. -/
structure Linked (w : Wire RaftMessage) (s : RpcCluster) (c : Cluster) : Prop where
  procs : c.procs = s.procs
  inFlight : (pending w s.calls).Subperm c.net
  sound : ∀ call ∈ s.calls, ∃ data, call.Sound w data

theorem linked_start : Linked w start Raft.start := ⟨rfl, List.Subperm.refl _, fun _ h => nomatch h⟩

theorem Linked.set_sound (h : Linked w s c) {call' : RpcCall} (hcall' : ∃ data, call'.Sound w data) :
    ∀ b ∈ s.calls.set k call', ∃ data, b.Sound w data := by
  intro b hb
  rcases List.mem_or_eq_of_mem_set hb with hb | rfl
  · exact h.sound b hb
  · exact hcall'

/-- Less may be pending on one connection than before. -/
theorem Linked.set (h : Linked w s c) (hk : s.calls[k]? = some call) {call' : RpcCall}
    (hcall' : ∃ data, call'.Sound w data) (hless : (call'.packets w).Sublist (call.packets w)) :
    Linked w { s with calls := s.calls.set k call' } c := by
  refine ⟨h.procs, ?_, h.set_sound hcall'⟩
  refine ((pending_set hk call').subperm.trans ?_).trans h.inFlight
  exact ((List.Sublist.append_right hless _).subperm).trans (pending_get hk).symm.subperm

theorem deliver_of_hand (h : Linked w s c) (hmem : p ∈ c.net) {src : Bytes} {procs : Bytes → Process}
    {reply : Option RaftMessage}
    (hsame : ∀ cfg n, Process.handle cfg n p.src p.msg = Process.handle cfg n src p.msg)
    (hhand : s.hand peers p.dst src p.msg = some (procs, reply)) :
    Raft.step peers c (.deliver p) = some ⟨procs, (reply.map (Packet.mk p.dst p.src)).toList ++ c.net.erase p⟩ := by
  rw [hand, Option.ite_none_right_eq_some, Option.map_eq_some_iff] at hhand
  obtain ⟨⟨hdst, hfree⟩, ⟨node, made⟩, hhandle, heq⟩ := hhand
  obtain ⟨rfl, rfl⟩ := Prod.mk.inj heq
  rw [Raft.step]
  simp only [h.procs, hsame, hhandle]
  rw [if_pos ⟨hmem, hdst, hfree⟩]
  simp only [Option.map_some, Cluster.put, h.procs]

/-- A message is handled, and what is in flight instead of it is its reply. -/
theorem Linked.deliver (h : Linked w s c) (hk : s.calls[k]? = some call) (hpackets : call.packets w = [p])
    {call' : RpcCall} {src : Bytes} {procs : Bytes → Process} {reply : Option RaftMessage}
    (hsame : ∀ cfg n, Process.handle cfg n p.src p.msg = Process.handle cfg n src p.msg)
    (hhand : s.hand peers p.dst src p.msg = some (procs, reply)) (hcall' : ∃ data, call'.Sound w data)
    (hless : (call'.packets w).Sublist (reply.map (Packet.mk p.dst p.src)).toList) :
    ∃ c', Raft.step peers c (.deliver p) = some c' ∧ Linked w ⟨procs, s.calls.set k call'⟩ c' := by
  have hget := pending_get (w := w) hk
  rw [hpackets] at hget
  have hflight : ([p] ++ pending w (s.calls.eraseIdx k)).Subperm c.net := hget.symm.subperm.trans h.inFlight
  have hmem : p ∈ c.net := hflight.subset (by simp)
  have hrest : (pending w (s.calls.eraseIdx k)).Subperm (c.net.erase p) := by
    have herase := hflight.erase p
    rwa [List.singleton_append, List.erase_cons_head] at herase
  refine ⟨_, deliver_of_hand h hmem hsame hhand, rfl, ?_, h.set_sound hcall'⟩
  exact (pending_set hk call').subperm.trans (hless.subperm.append hrest)

theorem pending_sendMessage (hw : Faithful w) {net : List Packet} (hnet : ∀ p ∈ net, p.msg.isRequest = true) :
    (pending w (net.filterMap (sendMessage w))).Sublist net := by
  induction net with
  | nil => exact List.nil_sublist _
  | cons p net ih =>
      have hrest := ih fun q hq => hnet q (List.mem_cons_of_mem p hq)
      cases hp : sendMessage w p with
      | none =>
          rw [List.filterMap_cons_none hp]
          exact hrest.cons p
      | some call =>
          have hpackets := (RpcCall.of_sendMessage hw (hnet p List.mem_cons_self) hp).2
          rw [List.filterMap_cons_some hp, pending, List.flatMap_cons, hpackets, List.singleton_append]
          exact hrest.cons_cons p

theorem pending_stopped (act : Action) (calls : List RpcCall) :
    (pending w (stopped act calls)).Sublist (pending w calls) := by
  cases act with
  | restart id =>
      rw [pending, stopped, List.flatMap_map]
      exact List.Sublist.flatMap_right calls fun call _ => call.packets_stop id
  | timer | heartbeat | propose | proposeNext | snapshot | deliver | lose | crashHandling =>
      exact List.Sublist.refl _

theorem sound_stopped (act : Action) {calls : List RpcCall} (h : ∀ call ∈ calls, ∃ data, call.Sound w data) :
    ∀ call ∈ stopped act calls, ∃ data, call.Sound w data := by
  cases act with
  | restart id =>
      intro b hb
      obtain ⟨call, hcall, rfl⟩ := List.mem_map.mp hb
      exact (h call hcall).imp fun _ hsound => hsound.stop id
  | timer | heartbeat | propose | proposeNext | snapshot | deliver | lose | crashHandling => exact h

/-- What a node does by itself opens connections for its requests. -/
theorem Linked.node (h : Linked w s c) (hw : Faithful w) (hs : step w peers s (.node act) = some t) :
    ∃ c', Raft.step peers c act = some c' ∧ Linked w t c' := by
  obtain ⟨made, hmade, rfl⟩ := Option.map_eq_some_iff.mp hs
  have hnet := isRequest_of_step hmade
  have hstep := step_frame hmade c.net
  rw [← h.procs] at hstep
  refine ⟨_, hstep, rfl, ?_, fun call hcall => ?_⟩
  · rw [pending, List.flatMap_append]
    refine List.perm_append_comm.subperm.trans ?_
    exact (pending_sendMessage hw hnet).subperm.append ((pending_stopped act s.calls).subperm.trans h.inFlight)
  · rcases List.mem_append.mp hcall with hcall | hcall
    · exact sound_stopped act h.sound call hcall
    · obtain ⟨p, hp, hcall⟩ := List.mem_filterMap.mp hcall
      exact (RpcCall.of_sendMessage hw (hnet p hp) hcall).1

/-- A step is the step it performs of the nodes, and otherwise none. -/
theorem Linked.step (h : Linked w s c) (hw : Faithful w) (hs : step w peers s a = some t) :
    Linked w t c ∨ ∃ act c', performs w s a = some act ∧ Raft.step peers c act = some c' ∧ Linked w t c' := by
  cases a with
  | node act =>
      obtain ⟨c', hc', hlinked⟩ := h.node hw hs
      exact .inr ⟨act, c', rfl, hc', hlinked⟩
  | io k e =>
      simp only [RpcCluster.step] at hs
      split at hs
      next => cases hs
      next call hk =>
        rw [Option.ite_none_right_eq_some, Option.map_eq_some_iff] at hs
        obtain ⟨hruns, io, hm, rfl⟩ := hs
        obtain ⟨data, hsound⟩ := h.sound call (List.mem_of_getElem? hk)
        obtain ⟨hsound', hpackets⟩ := hsound.move hw hruns hm
        exact .inl (h.set hk ⟨data, hsound'⟩ (hpackets ▸ List.Sublist.refl _))
  | onMessage k res =>
      simp only [RpcCluster.step] at hs
      split at hs
      next => cases hs
      next call hk =>
        obtain ⟨data, hsound⟩ := h.sound call (List.mem_of_getElem? hk)
        split at hs
        next m hgone hread =>
          obtain ⟨hzero, rfl, -, -⟩ := hsound.delivered hread
          have hparse := (hw _ _ hsound.bytes).2
          rw [hparse] at hs
          simp only at hs
          split at hs
          next => cases hs
          next procs reply hhand =>
            obtain ⟨call', hrespond, rfl⟩ := Option.map_eq_some_iff.mp hs
            obtain ⟨hsound', hless⟩ := hsound.respond hw hread hrespond
            have hpackets : call.packets w = [⟨call.src, call.dst, call.msg⟩] := by rw [RpcCall.packets, if_pos hzero]
            obtain ⟨c', hc', hlinked⟩ := h.deliver hk hpackets
              (fun cfg n => handle_isRequest hsound.request cfg n _ _) hhand ⟨_, hsound'⟩ hless
            refine .inr ⟨_, c', ?_, hc', hlinked⟩
            simp [performs, hk, hread, hparse]
        next => cases hs
  | finish k =>
      simp only [RpcCluster.step] at hs
      split at hs
      next => cases hs
      next call hk =>
        rw [Option.ite_none_right_eq_some, Bool.and_eq_true, Bool.not_eq_true'] at hs
        obtain ⟨⟨hclosed, -⟩, hs⟩ := hs
        obtain ⟨data, hsound⟩ := h.sound call (List.mem_of_getElem? hk)
        have hclose : ({ call with closed := true } : RpcCall).Sound w data :=
          ⟨hsound.bytes, hsound.io, hsound.request, hsound.answers, hsound.handled⟩
        split at hs
        next hnone =>
          obtain rfl := Option.some.inj hs
          exact .inl (h.set hk ⟨data, hclose⟩ call.packets_close)
        next msg hresponse =>
          obtain ⟨⟨procs, reply⟩, hhand, rfl⟩ := Option.map_eq_some_iff.mp hs
          obtain ⟨hpackets, hempty⟩ := hsound.response hclosed hresponse
          obtain ⟨c', hc', hlinked⟩ := h.deliver hk hpackets (fun _ _ => rfl) hhand ⟨data, hclose⟩
            (hempty ▸ List.nil_sublist _)
          refine .inr ⟨_, c', ?_, hc', hlinked⟩
          simp [performs, hk, hresponse]

theorem linked_of_run (hw : Faithful w) {guard : (Bytes → Process) → Action → Prop}
    (h : Run (step w peers) (fun s a => ∀ act ∈ performs w s a, guard s.procs act) start acts s) :
    ∃ racts c, Run (Raft.step peers) (fun c act => guard c.procs act) Raft.start racts c ∧ Linked w s c := by
  refine h.simulated (fun s a t c hlinked hguard hs => ?_) linked_start
  rcases hlinked.step hw hs with hsame | ⟨act, c', hact, hc', hnext⟩
  · exact ⟨[], c, .nil, hsame⟩
  · have hallowed := hguard act hact
    rw [← hlinked.procs] at hallowed
    exact ⟨[act], c', .single hallowed hc', hnext⟩

/-- Whatever the connections do to the bytes, the nodes do what they do where messages are lost, delayed and
reordered. -/
theorem rpc_refines (hw : Faithful w) {guard : (Bytes → Process) → Action → Prop}
    (h : Run (step w peers) (fun s a => ∀ act ∈ performs w s a, guard s.procs act) start acts s) :
    ∃ racts c, Run (Raft.step peers) (fun c act => guard c.procs act) Raft.start racts c ∧ c.procs = s.procs := by
  obtain ⟨racts, c, hrun, hlinked⟩ := linked_of_run hw h
  exact ⟨racts, c, hrun, hlinked.procs⟩

end RpcCluster

theorem RpcTrio.faithful_rows : Faithful (Wire.table RpcTrio.rows) := by
  intro msg data h
  obtain ⟨row, hrow, rfl⟩ := Option.map_eq_some_iff.mp h
  have hmem := List.mem_of_find?_eq_some hrow
  have hmsg : row.1 = msg := by simpa using List.find?_some hrow
  subst hmsg
  have hall : ∀ row ∈ RpcTrio.rows, row.2.length < 2 ^ 31 ∧ (Wire.table RpcTrio.rows).parse row.2 = some row.1 := by
    decide
  exact hall row hmem

namespace RpcCluster

/-- The vote comes in pieces, and the candidate is a leader of the cluster without connections as well. -/
theorem rpc_refines_election : ∃ s racts c,
    Run (step (.table RpcTrio.rows) RpcTrio.peers) (fun s a => ∀ act ∈ performs (.table RpcTrio.rows) s a,
      noCrash act = true) start RpcTrio.election s ∧
    Run (Raft.step RpcTrio.peers) (fun _ act => noCrash act = true) Raft.start racts c ∧
      (c.node RpcTrio.a).state = .leader := by
  obtain ⟨s, h, hp⟩ := exists_run_of_exec (step (.table RpcTrio.rows) RpcTrio.peers)
    (fun s a => ∀ act ∈ performs (.table RpcTrio.rows) s a, noCrash act = true) start RpcTrio.election
    (fun s => (s.procs RpcTrio.a).node.state = .leader) (by decide)
  obtain ⟨racts, c, hrun, hprocs⟩ := @rpc_refines (.table RpcTrio.rows) RpcTrio.peers _ _ RpcTrio.faithful_rows
    (fun _ act => noCrash act = true) h
  refine ⟨s, racts, c, h, hrun, ?_⟩
  rw [Cluster.node, hprocs]
  exact of_decide_eq_true hp

end RpcCluster

end MiniStorage.Raft
