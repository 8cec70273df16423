import MiniStorage.Net.Exchange

namespace MiniStorage.Net

open Namenode Framing Runs

/-- A client at a TcpServer: the connection there, what msg_cb_ was handed, whether ProcessMessages is running, and what
Send was called with. -/
structure Call where
  client : Client
  request : Bytes := []
  conn : TcpConnection := .start {}
  processing : Bool := false
  delivered : List Bytes := []
  replies : List Bytes := []
  response : Bytes := []
deriving DecidableEq, Repr

inductive CallAction
  | clientWrite (res : Outcome)
  | handleRead (res : Outcome)
  | processMessage
  | send (reply : Bytes) (res : Outcome)
  | handleWrite (res : Outcome)
  | clientRead (res : Outcome)
deriving DecidableEq, Repr

namespace Call

/-- A message is answered at most once; when, is up to the threads. -/
def step (s : Call) : CallAction → Option Call
  | .clientWrite res =>
      if s.client.send.result = none then
        let r := s.client.send.write res
        some { s with client := { s.client with send := r.2 }, request := s.request ++ r.1 }
      else none
  | .handleRead res =>
      if s.conn.channel.reading && !s.processing then
        let r := s.conn.handleRead s.request res
        some { s with conn := r.2.1, request := r.2.2, processing := r.1 }
      else none
  | .processMessage =>
      if s.processing then
        match s.conn.processMessage with
        | none => some { s with processing := false }
        | some (message, conn) => some { s with conn, delivered := s.delivered ++ [message] }
      else none
  | .send reply res =>
      if s.replies.length < s.delivered.length then
        let r := s.conn.send reply res
        some { s with conn := r.2, response := s.response ++ r.1, replies := s.replies ++ [reply] }
      else none
  | .handleWrite res =>
      if s.conn.channel.writing then
        let r := s.conn.handleWrite res
        some { s with conn := r.2, response := s.response ++ r.1 }
      else none
  | .clientRead res =>
      if s.client.send.result = some true ∧ s.client.recv.result = none then
        let r := s.client.recv.read s.response res
        some { s with client := { s.client with recv := r.1 }, response := r.2 }
      else none

/-- Reads give no more than has arrived. The client may hang up, and every call may fail. -/
def Possible (s : Call) : CallAction → Prop
  | .clientWrite res => res.atMost s.client.send.asked.length
  | .handleRead res => res.atMost (min Link.bufSize s.request.length)
  | .processMessage => True
  | .send reply res => reply.length < 2 ^ 32 ∧ res.atMost (4 + reply.length)
  | .handleWrite res => res.atMost s.conn.writeBuf.length
  | .clientRead res => res.atMost (min s.client.recv.asked s.response.length)

instance (s : Call) (a : CallAction) : Decidable (Possible s a) := by
  cases a <;> unfold Possible <;> infer_instance

def start (request : Bytes) : Call := { client := { send := sendMsg request } }

/-- The request is with msg_cb_ or its bytes are on their way. So is the reply, unless it was given up at once. -/
structure Sound (request : Bytes) (s : Call) : Prop where
  recv : s.client.recv.Sound
  out : s.delivered = [] ∧ s.conn.readBuf ++ (s.request ++ s.client.send.left) = lengthCode.frame request ∨
    s.delivered = [request] ∧ s.conn.readBuf ++ (s.request ++ s.client.send.left) = []
  back : (∃ reply, s.replies = [reply] ∧ reply.length < 2 ^ 32 ∧
      s.client.recv.consumed ++ (s.response ++ s.conn.writeBuf) = lengthCode.frame reply) ∨
    s.client.recv.consumed ++ (s.response ++ s.conn.writeBuf) = []
  answers : s.replies.length ≤ s.delivered.length
  gaveUp : s.client.send.result = some false → s.client.send.left ≠ []

variable {request reply : Bytes} {s t : Call} {a : CallAction} {as : List CallAction} {res : Outcome}

theorem sound_start (hrequest : request.length < 2 ^ 32) : Sound request (start request) where
  recv := RecvMsg.sound_start
  out := .inl ⟨rfl, SendMsg.left_sendMsg hrequest⟩
  back := .inr rfl
  answers := Nat.le_refl 0
  gaveUp := fun h => absurd h (Exchange.result_sendMsg request)

theorem writeBuf_handleRead (c : TcpConnection) (arrived : Bytes) (res : Outcome) :
    (c.handleRead arrived res).2.1.writeBuf = c.writeBuf := by
  cases res with
  | count n => by_cases hn : 0 < n <;> simp [TcpConnection.handleRead, hn, TcpConnection.handleClose]
  | wouldBlock | failed => rfl

theorem readBuf_send (c : TcpConnection) (data : Bytes) (res : Outcome) : (c.send data res).2.readBuf = c.readBuf := by
  by_cases hempty : c.writeBuf = []
  · cases res with
    | count n =>
        simp only [TcpConnection.send, hempty, ne_eq, not_true_eq_false, if_false]
        split <;> rfl
    | wouldBlock =>
        simp only [TcpConnection.send, hempty, ne_eq, not_true_eq_false, if_false]
        split <;> rfl
    | failed => simp [TcpConnection.send, hempty, TcpConnection.handleClose]
  · simp only [TcpConnection.send, ne_eq, hempty, not_false_eq_true, if_true]

theorem readBuf_handleWrite (c : TcpConnection) (res : Outcome) : (c.handleWrite res).2.readBuf = c.readBuf := by
  by_cases hempty : c.writeBuf = []
  · simp [TcpConnection.handleWrite, hempty]
  · cases res with
    | count n => by_cases hn : 0 < n <;> simp [TcpConnection.handleWrite, hempty, hn]
    | wouldBlock | failed => simp [TcpConnection.handleWrite, hempty, TcpConnection.handleClose]

theorem Sound.step (h : Sound request s) (hrequest : Fits request) (ha : Possible s a) (hs : s.step a = some t) :
    Sound request t := by
  have hbound : request.length < 2 ^ 32 := Nat.lt_of_le_of_lt (Nat.le_add_right _ 4) hrequest
  cases a with
  | clientWrite res =>
      rw [Call.step, Option.ite_none_right_eq_some] at hs
      obtain ⟨hc, hs⟩ := hs
      obtain rfl := Option.some.inj hs
      have hbytes := SendMsg.write_bytes s.client.send res
      have hsame : s.conn.readBuf ++ (s.request ++ (s.client.send.write res).1 ++ (s.client.send.write res).2.left) =
          s.conn.readBuf ++ (s.request ++ s.client.send.left) := by
        rw [List.append_assoc s.request, hbytes]
      exact ⟨h.recv, by simpa only [hsame] using h.out, h.back, h.answers, SendMsg.left_write_of_false hc⟩
  | handleRead res =>
      rw [Call.step, Option.ite_none_right_eq_some] at hs
      obtain rfl := Option.some.inj hs.2
      have hsame : (s.conn.handleRead s.request res).2.1.readBuf ++
          ((s.conn.handleRead s.request res).2.2 ++ s.client.send.left) =
          s.conn.readBuf ++ (s.request ++ s.client.send.left) := by
        rw [← List.append_assoc, TcpConnection.handleRead_bytes, List.append_assoc]
      refine ⟨h.recv, by simpa only [hsame] using h.out, ?_, h.answers, h.gaveUp⟩
      simpa only [writeBuf_handleRead] using h.back
  | processMessage =>
      rw [Call.step, Option.ite_none_right_eq_some] at hs
      obtain ⟨-, hs⟩ := hs
      rcases h.out with ⟨hnone, hstream⟩ | ⟨hone, hempty⟩
      · have hframes : s.conn.readBuf ++ (s.request ++ s.client.send.left) = lengthCode.frames [request] := by
          rw [hstream, LengthCode.frames_cons, LengthCode.frames_nil, List.append_nil]
        have hall : ∀ m ∈ [request], m.length < lengthCode.bound := fun m hm => by rwa [List.mem_singleton.mp hm]
        rcases LengthCode.readFrame_part hall hframes with
          ⟨hread, -⟩ | ⟨m, ms, buf, heq, hread, hrest⟩
        · rw [TcpConnection.processMessage_eq_none hread] at hs
          obtain rfl := Option.some.inj hs
          exact ⟨h.recv, h.out, h.back, h.answers, h.gaveUp⟩
        · obtain ⟨rfl, rfl⟩ := List.cons.inj heq
          rw [TcpConnection.processMessage_eq_some hread hrequest] at hs
          obtain rfl := Option.some.inj hs
          refine ⟨h.recv, .inr ⟨by rw [hnone]; rfl, hrest⟩, h.back, ?_, h.gaveUp⟩
          rw [List.length_append]
          exact Nat.le_trans h.answers (Nat.le_add_right _ _)
      · have hbuf : s.conn.readBuf = [] := (List.append_eq_nil_iff.mp hempty).1
        have hread : s.conn.processMessage = none := by rw [TcpConnection.processMessage, hbuf]; rfl
        rw [hread] at hs
        obtain rfl := Option.some.inj hs
        exact ⟨h.recv, h.out, h.back, h.answers, h.gaveUp⟩
  | send reply res =>
      rw [Call.step, Option.ite_none_right_eq_some] at hs
      obtain ⟨hfirst, hs⟩ := hs
      obtain rfl := Option.some.inj hs
      have hdelivered : s.delivered.length ≤ 1 := by
        rcases h.out with ⟨hd, -⟩ | ⟨hd, -⟩ <;> rw [hd] <;> simp
      have hnone : s.replies = [] := List.length_eq_zero_iff.mp (by omega)
      have hback : s.client.recv.consumed ++ (s.response ++ s.conn.writeBuf) = [] := by
        rcases h.back with ⟨r, hr, -⟩ | hempty
        · rw [hnone] at hr
          cases hr
        · exact hempty
      obtain ⟨hconsumed, hflight⟩ := List.append_eq_nil_iff.mp hback
      obtain ⟨hresponse, hbuf⟩ := List.append_eq_nil_iff.mp hflight
      refine ⟨h.recv, by simpa only [readBuf_send] using h.out, ?_, ?_, h.gaveUp⟩
      · by_cases hres : res = .failed
        · refine .inr ?_
          subst hres
          simp [hconsumed, hresponse, TcpConnection.send, hbuf, TcpConnection.handleClose]
        · refine .inl ⟨reply, by rw [hnone]; rfl, ha.1, ?_⟩
          have hbytes := TcpConnection.send_bytes (c := s.conn) ha.1 hres
          rw [hconsumed, hresponse, List.nil_append, List.nil_append, hbytes, hbuf, List.nil_append]
      · rw [hnone, List.nil_append, List.length_singleton]
        rw [hnone, List.length_nil] at hfirst
        exact hfirst
  | handleWrite res =>
      rw [Call.step, Option.ite_none_right_eq_some] at hs
      obtain rfl := Option.some.inj hs.2
      have hbytes := TcpConnection.handleWrite_bytes s.conn res
      refine ⟨h.recv, by simpa only [readBuf_handleWrite] using h.out, ?_, h.answers, h.gaveUp⟩
      simpa only [List.append_assoc, hbytes] using h.back
  | clientRead res =>
      rw [Call.step, Option.ite_none_right_eq_some] at hs
      obtain rfl := Option.some.inj hs.2
      have hbytes := RecvMsg.read_bytes s.client.recv s.response res
      have hsame : (s.client.recv.read s.response res).1.consumed ++
          ((s.client.recv.read s.response res).2 ++ s.conn.writeBuf) =
          s.client.recv.consumed ++ (s.response ++ s.conn.writeBuf) := by
        rw [← List.append_assoc, hbytes, List.append_assoc]
      exact ⟨h.recv.read ha, h.out, by simpa only [hsame] using h.back, h.answers, h.gaveUp⟩

theorem Sound.returned (h : Sound request s) (hreturned : s.client.returned = some (some reply)) :
    s.delivered = [request] ∧ s.replies = [reply] := by
  have hread := h.recv.readFrame (Client.recv_of_returned hreturned) (s.response ++ s.conn.writeBuf)
  rcases h.back with ⟨made, hmade, hlen, hframe⟩ | hempty
  · have hwhole := LengthCode.readFrame_frame (c := lengthCode) hlen []
    rw [List.append_nil] at hwhole
    rw [hframe, hwhole] at hread
    obtain rfl := (Prod.mk.inj (Option.some.inj hread)).1
    refine ⟨?_, hmade⟩
    rcases h.out with ⟨hnone, -⟩ | ⟨hone, -⟩
    · have hanswers := h.answers
      rw [hmade, hnone] at hanswers
      exact absurd hanswers (by simp)
    · exact hone
  · rw [hempty] at hread
    cases hread

/-- The same at a TcpServer: msg_cb_ is handed the request or nothing, nothing where SendMsg has failed, and what the
client gets is what Send was called with in answer to it. -/
theorem call_exact (hrequest : Fits request) (h : Run step Possible (start request) as s) :
    (s.delivered = [] ∨ s.delivered = [request]) ∧
      (s.client.send.result = some false → s.delivered = []) ∧
      ∀ reply, s.client.returned = some (some reply) → s.delivered = [request] ∧ s.replies = [reply] := by
  have hbound : request.length < 2 ^ 32 := Nat.lt_of_le_of_lt (Nat.le_add_right _ 4) hrequest
  have hsound : Sound request s :=
    h.invariant (fun _ _ _ hi ha hs => hi.step hrequest ha hs) (sound_start hbound)
  refine ⟨hsound.out.imp And.left And.left, fun hfailed => ?_, fun reply hreturned => hsound.returned hreturned⟩
  rcases hsound.out with ⟨hnone, -⟩ | ⟨-, hempty⟩
  · exact hnone
  · have hleft := (List.append_eq_nil_iff.mp (List.append_eq_nil_iff.mp hempty).2).2
    exact absurd hleft (hsound.gaveUp hfailed)

/-- A request that is answered while ProcessMessages still runs, everything in pieces. -/
theorem call_exact_pieces :
    ∃ s : Call,
      Run step Possible (start [7])
          [.clientWrite (.count 4), .handleRead (.count 3), .processMessage, .clientWrite (.count 1),
            .handleRead (.count 2), .processMessage, .send [8, 9] (.count 2), .processMessage, .clientRead (.count 1),
            .handleWrite (.count 4), .clientRead (.count 3), .clientRead (.count 2)] s ∧
        s.client.returned = some (some [8, 9]) ∧ s.delivered = [[7]] ∧ s.replies = [[8, 9]] := by
  obtain ⟨s, hrun, hs⟩ := exists_run_of_exec step Possible (start [7])
    [.clientWrite (.count 4), .handleRead (.count 3), .processMessage, .clientWrite (.count 1),
      .handleRead (.count 2), .processMessage, .send [8, 9] (.count 2), .processMessage, .clientRead (.count 1),
      .handleWrite (.count 4), .clientRead (.count 3), .clientRead (.count 2)]
    (fun s => s.client.returned = some (some [8, 9])) (by decide)
  have hreturned := of_decide_eq_true hs
  exact ⟨s, hrun, hreturned, (call_exact (by decide) hrun).2.2 _ hreturned⟩

end Call

end MiniStorage.Net
