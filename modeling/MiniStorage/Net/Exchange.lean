import MiniStorage.Net.IoHelpers

namespace MiniStorage.Net

open Namenode Framing Runs

/-- A thread that sends a request on a new connection and waits for the response, as SendToNameNode, ForwardToNext,
FetchBlock and PushBlock do. -/
structure Client where
  send : SendMsg
  recv : RecvMsg := {}
deriving DecidableEq, Repr

/-- The response or false, once the thread closes the connection. -/
def Client.returned (c : Client) : Option (Option Bytes) :=
  match c.send.result with
  | none => none
  | some false => some none
  | some true => c.recv.result

theorem Client.recv_of_returned {c : Client} {reply : Bytes} (h : c.returned = some (some reply)) :
    c.recv.result = some (some reply) := by
  rw [Client.returned] at h
  split at h
  next => cases h
  next => cases h
  next => exact h

/-- A client and a thread of ListenLoop in HandleConnection, with the bytes on their way in both directions. -/
structure Exchange where
  client : Client
  request : Bytes := []
  server : RecvMsg := {}
  handled : List Bytes := []
  reply : Option SendMsg := none
  response : Bytes := []
deriving DecidableEq, Repr

inductive ExchangeAction
  | clientWrite (res : Outcome)
  | serverRead (res : Outcome)
  | handle
  | serverWrite (res : Outcome)
  | clientRead (res : Outcome)
deriving DecidableEq, Repr

namespace Exchange

/-- `serve` is HandleConnection between RecvMsg and SendMsg: nothing where the message is not a request or the thread
dies of an exception. -/
def step (serve : Bytes → Option Bytes) (s : Exchange) : ExchangeAction → Option Exchange
  | .clientWrite res =>
      if s.client.send.result = none then
        let r := s.client.send.write res
        some { s with client := { s.client with send := r.2 }, request := s.request ++ r.1 }
      else none
  | .serverRead res =>
      if s.server.result = none then
        let r := s.server.read s.request res
        some { s with server := r.1, request := r.2 }
      else none
  | .handle =>
      match s.server.result, s.handled with
      | some (some message), [] => some { s with handled := [message], reply := (serve message).map sendMsg }
      | _, _ => none
  | .serverWrite res =>
      match s.reply with
      | none => none
      | some reply =>
          if reply.result = none then
            let r := reply.write res
            some { s with reply := r.2, response := s.response ++ r.1 }
          else none
  | .clientRead res =>
      if s.client.send.result = some true ∧ s.client.recv.result = none then
        let r := s.client.recv.read s.response res
        some { s with client := { s.client with recv := r.1 }, response := r.2 }
      else none

/-- Reads give no more than has arrived. -/
def Possible (s : Exchange) : ExchangeAction → Prop
  | .clientWrite res => res.atMost s.client.send.asked.length
  | .serverRead res => res.atMost (min s.server.asked s.request.length)
  | .handle => True
  | .serverWrite res => ∀ reply ∈ s.reply, res.atMost reply.asked.length
  | .clientRead res => res.atMost (min s.client.recv.asked s.response.length)

def start (request : Bytes) : Exchange := { client := { send := sendMsg request } }

/-- Every call of write and read gives something. -/
def Flows (s : Exchange) : ExchangeAction → Prop
  | .clientWrite res => res.some s.client.send.asked.length
  | .serverRead res => res.some (min s.server.asked s.request.length)
  | .handle => True
  | .serverWrite res => ∀ reply ∈ s.reply, res.some reply.asked.length
  | .clientRead res => res.some (min s.client.recv.asked s.response.length)

/-- Client and server have come to their ends, or wait for bytes of which none are on their way. -/
def Stuck (serve : Bytes → Option Bytes) (s : Exchange) : Prop := ∀ a, s.Flows a → s.step serve a = none

instance (s : Exchange) (a : ExchangeAction) : Decidable (Possible s a) := by
  cases a <;> unfold Possible <;> infer_instance

instance (s : Exchange) (a : ExchangeAction) : Decidable (Flows s a) := by
  cases a <;> unfold Flows <;> infer_instance

/-- How far the exchange is from its end. -/
def remaining (serve : Bytes → Option Bytes) (request : Bytes) (s : Exchange) : Nat :=
  2 * s.client.send.left.length + s.request.length +
    (if s.handled = [] then 1 + 2 * ((serve request).elim [] lengthCode.frame).length
      else 2 * (s.reply.elim [] SendMsg.left).length) + s.response.length

/-- The bytes of both directions, in their order, and how far the handler has come. -/
structure Sound (serve : Bytes → Option Bytes) (request : Bytes) (s : Exchange) : Prop where
  server : s.server.Sound
  recv : s.client.recv.Sound
  out : s.server.consumed ++ (s.request ++ s.client.send.left) = lengthCode.frame request
  back : s.client.recv.consumed ++ (s.response ++ s.reply.elim [] SendMsg.left) =
    if s.handled = [] then [] else (serve request).elim [] lengthCode.frame
  gaveUp : s.client.send.result = some false → s.client.send.left ≠ []
  handled : s.handled = [] ∨ s.handled = [request] ∧ s.server.result = some (some request)
  replied : s.reply.isSome = true ↔ s.handled ≠ [] ∧ (serve request).isSome = true

variable {serve : Bytes → Option Bytes} {request message reply : Bytes} {s t : Exchange} {a : ExchangeAction}
  {as : List ExchangeAction}

theorem result_sendMsg (data : Bytes) : (sendMsg data).result ≠ some false := by
  rw [Ne, SendMsg.result_eq_false, sendMsg]
  simp

theorem sound_start (hrequest : request.length < 2 ^ 32) : Sound serve request (start request) where
  server := RecvMsg.sound_start
  recv := RecvMsg.sound_start
  out := SendMsg.left_sendMsg hrequest
  back := rfl
  gaveUp := fun h => absurd h (result_sendMsg request)
  handled := .inl rfl
  replied := by simp [start]

/-- What the server has received is the request, and all of it. -/
theorem Sound.received (h : Sound serve request s) (hrequest : request.length < 2 ^ 32)
    (hs : s.server.result = some (some message)) : message = request ∧ s.request = [] ∧ s.client.send.left = [] := by
  have hread := h.server.readFrame hs (s.request ++ s.client.send.left)
  have hframe := LengthCode.readFrame_frame (c := lengthCode) hrequest []
  rw [List.append_nil, ← h.out, hread] at hframe
  obtain ⟨hmessage, hrest⟩ := Prod.mk.inj (Option.some.inj hframe)
  exact ⟨hmessage, List.append_eq_nil_iff.mp hrest⟩

theorem Sound.step (h : Sound serve request s) (hrequest : request.length < 2 ^ 32)
    (hreply : ∀ reply, serve request = some reply → reply.length < 2 ^ 32) (ha : Possible s a)
    (hs : s.step serve a = some t) : Sound serve request t := by
  cases a with
  | clientWrite res =>
      rw [Exchange.step, Option.ite_none_right_eq_some] at hs
      obtain ⟨hc, hs⟩ := hs
      obtain rfl := Option.some.inj hs
      have hbytes := SendMsg.write_bytes s.client.send res
      refine ⟨h.server, h.recv, ?_, h.back, SendMsg.left_write_of_false hc, h.handled, h.replied⟩
      rw [← h.out, ← hbytes]
      simp only [List.append_assoc]
  | serverRead res =>
      rw [Exchange.step, Option.ite_none_right_eq_some] at hs
      obtain ⟨hc, hs⟩ := hs
      obtain rfl := Option.some.inj hs
      have hbytes := RecvMsg.read_bytes s.server s.request res
      refine ⟨h.server.read ha, h.recv, ?_, h.back, h.gaveUp, ?_, h.replied⟩
      · rw [← h.out, ← List.append_assoc, hbytes, List.append_assoc]
      · rcases h.handled with hnone | ⟨-, hdone⟩
        · exact .inl hnone
        · rw [hc] at hdone
          cases hdone
  | handle =>
      rw [Exchange.step] at hs
      split at hs
      next message hmessage hnone =>
        cases hs
        obtain ⟨rfl, -⟩ := h.received hrequest hmessage
        have hquiet : s.reply = none := by
          rw [← Option.not_isSome_iff_eq_none, h.replied, hnone]
          exact fun hne => hne.1 rfl
        have hback := h.back
        rw [if_pos hnone, hquiet, Option.elim_none, List.append_nil] at hback
        refine ⟨h.server, h.recv, h.out, ?_, h.gaveUp, .inr ⟨rfl, hmessage⟩, ?_⟩
        · obtain ⟨hconsumed, hresponse⟩ := List.append_eq_nil_iff.mp hback
          rw [hconsumed, hresponse, if_neg (List.cons_ne_nil _ _)]
          cases hserve : serve message with
          | none => rfl
          | some reply => exact SendMsg.left_sendMsg (hreply reply hserve)
        · simp
      next => cases hs
  | serverWrite res =>
      rw [Exchange.step] at hs
      split at hs
      next => cases hs
      next reply hreplied =>
        rw [Option.ite_none_right_eq_some] at hs
        obtain rfl := Option.some.inj hs.2
        have hbytes := SendMsg.write_bytes reply res
        refine ⟨h.server, h.recv, h.out, ?_, h.gaveUp, h.handled, ?_⟩
        · rw [← h.back, hreplied, Option.elim_some, Option.elim_some, ← hbytes]
          simp only [List.append_assoc]
        · rw [← h.replied, hreplied]
          rfl
  | clientRead res =>
      rw [Exchange.step, Option.ite_none_right_eq_some] at hs
      obtain rfl := Option.some.inj hs.2
      have hbytes := RecvMsg.read_bytes s.client.recv s.response res
      refine ⟨h.server, h.recv.read ha, h.out, ?_, h.gaveUp, h.handled, h.replied⟩
      rw [← h.back, ← List.append_assoc, hbytes, List.append_assoc]

theorem Sound.of_run (hrequest : request.length < 2 ^ 32)
    (hreply : ∀ reply, serve request = some reply → reply.length < 2 ^ 32)
    (h : Run (Exchange.step serve) Possible (start request) as s) : Sound serve request s :=
  h.invariant (fun _ _ _ hi ha hs => hi.step hrequest hreply ha hs) (sound_start hrequest)

/-- The response that a client got is what the handler made of the request. -/
theorem Sound.returned (h : Sound serve request s)
    (hreply : ∀ reply, serve request = some reply → reply.length < 2 ^ 32)
    (hs : s.client.returned = some (some reply)) : s.handled = [request] ∧ serve request = some reply := by
  have hread := h.recv.readFrame (Client.recv_of_returned hs) (s.response ++ s.reply.elim [] SendMsg.left)
  rw [h.back] at hread
  have hempty : lengthCode.readFrame [] = none := rfl
  rcases h.handled with hnone | ⟨hone, -⟩
  · rw [if_pos hnone, hempty] at hread
    cases hread
  · rw [if_neg (by rw [hone]; exact List.cons_ne_nil _ _)] at hread
    cases hserve : serve request with
    | none =>
        rw [hserve, Option.elim_none, hempty] at hread
        cases hread
    | some made =>
        have hframe := LengthCode.readFrame_frame (c := lengthCode) (hreply made hserve) []
        rw [List.append_nil] at hframe
        rw [hserve, Option.elim_some, hframe] at hread
        exact ⟨hone, congrArg some (Prod.mk.inj (Option.some.inj hread)).1⟩

/-- However writes and reads cut the bytes up and wherever they fail, the handler runs at most once, and on the request.
It does not run if SendMsg has failed, and the response that a client gets is the one that it made. -/
theorem exchange_exact (hrequest : request.length < 2 ^ 32)
    (hreply : ∀ reply, serve request = some reply → reply.length < 2 ^ 32)
    (h : Run (step serve) Possible (start request) as s) :
    (s.handled = [] ∨ s.handled = [request]) ∧
      (s.client.send.result = some false → s.handled = []) ∧
      ∀ reply, s.client.returned = some (some reply) → s.handled = [request] ∧ serve request = some reply := by
  have hsound := Sound.of_run hrequest hreply h
  refine ⟨hsound.handled.imp_right And.left, ?_, fun reply hs => hsound.returned hreply hs⟩
  intro hfailed
  rcases hsound.handled with hnone | ⟨-, hdone⟩
  · exact hnone
  · exact absurd (hsound.received hrequest hdone).2.2 (hsound.gaveUp hfailed)

def tagged (message : Bytes) : Option Bytes := some (8 :: message)

/-- A request and its response in pieces, and a client that stops in the middle of the request. -/
theorem exchange_exact_pieces :
    ∃ s t : Exchange,
      Run (step tagged) Possible (start [7])
          [.clientWrite (.count 2), .serverRead (.count 1), .clientWrite (.count 2), .clientWrite (.count 1),
            .serverRead (.count 3), .serverRead (.count 1), .handle, .serverWrite (.count 4), .serverWrite (.count 1),
            .clientRead (.count 4), .clientRead (.count 1), .serverWrite (.count 1), .clientRead (.count 1)] s ∧
        s.handled = [[7]] ∧ s.client.returned = some (some [8, 7]) ∧
      Run (step tagged) Possible (start [7])
          [.clientWrite (.count 4), .serverRead (.count 4), .clientWrite .wouldBlock, .serverRead (.count 0)] t ∧
        t.client.returned = some none ∧ t.handled = [] := by
  have hreply : ∀ reply, tagged [7] = some reply → reply.length < 2 ^ 32 := by rintro _ ⟨⟩; decide
  obtain ⟨s, hrun, hs⟩ := exists_run_of_exec (step tagged) Possible (start [7])
    [.clientWrite (.count 2), .serverRead (.count 1), .clientWrite (.count 2), .clientWrite (.count 1),
      .serverRead (.count 3), .serverRead (.count 1), .handle, .serverWrite (.count 4), .serverWrite (.count 1),
      .clientRead (.count 4), .clientRead (.count 1), .serverWrite (.count 1), .clientRead (.count 1)]
    (fun s => s.client.returned = some (some [8, 7])) (by decide)
  obtain ⟨t, hrun', ht⟩ := exists_run_of_exec (step tagged) Possible (start [7])
    [.clientWrite (.count 4), .serverRead (.count 4), .clientWrite .wouldBlock, .serverRead (.count 0)]
    (fun t => t.client.send.result = some false ∧ t.client.returned = some none) (by decide)
  obtain ⟨hfailed, hnone⟩ := of_decide_eq_true ht
  have hs' := of_decide_eq_true hs
  exact ⟨s, t, hrun, ((exchange_exact (by decide) hreply hrun).2.2 _ hs').1, hs', hrun', hnone,
    (exchange_exact (by decide) hreply hrun').2.1 hfailed⟩

/-- No call has failed. -/
structure Fine (s : Exchange) : Prop where
  send : s.client.send.result ≠ some false
  server : s.server.result ≠ some none
  reply : ∀ c, s.reply = some c → c.result ≠ some false
  recv : s.client.recv.result ≠ some none

theorem Flows.possible (h : Flows s a) : Possible s a := by
  cases a with
  | clientWrite | serverRead | clientRead => exact Outcome.some.atMost h
  | handle => trivial
  | serverWrite => exact fun reply hreply => (h reply hreply).atMost

theorem Fine.step (h : Fine s) (ha : Flows s a) (hs : s.step serve a = some t) : Fine t := by
  cases a with
  | clientWrite res =>
      rw [Exchange.step, Option.ite_none_right_eq_some] at hs
      obtain rfl := Option.some.inj hs.2
      exact ⟨(SendMsg.write_some hs.1 ha).1, h.server, h.reply, h.recv⟩
  | serverRead res =>
      rw [Exchange.step, Option.ite_none_right_eq_some] at hs
      obtain rfl := Option.some.inj hs.2
      exact ⟨h.send, (RecvMsg.read_some h.server ha).1, h.reply, h.recv⟩
  | handle =>
      rw [Exchange.step] at hs
      split at hs
      next =>
        cases hs
        refine ⟨h.send, h.server, fun c hc => ?_, h.recv⟩
        obtain ⟨reply, -, rfl⟩ := Option.map_eq_some_iff.mp hc
        exact result_sendMsg reply
      next => cases hs
  | serverWrite res =>
      rw [Exchange.step] at hs
      split at hs
      next => cases hs
      next reply hreply =>
        rw [Option.ite_none_right_eq_some] at hs
        obtain rfl := Option.some.inj hs.2
        refine ⟨h.send, h.server, ?_, h.recv⟩
        rintro c ⟨⟩
        exact (SendMsg.write_some hs.1 (ha reply hreply)).1
  | clientRead res =>
      rw [Exchange.step, Option.ite_none_right_eq_some] at hs
      obtain rfl := Option.some.inj hs.2
      exact ⟨h.send, h.server, h.reply, (RecvMsg.read_some h.recv ha).1⟩

theorem remaining_step (h : Sound serve request s) (hfine : Fine s) (hrequest : request.length < 2 ^ 32)
    (hreply : ∀ reply, serve request = some reply → reply.length < 2 ^ 32) (ha : Flows s a)
    (hs : s.step serve a = some t) : remaining serve request t < remaining serve request s := by
  cases a with
  | clientWrite res =>
      rw [Exchange.step, Option.ite_none_right_eq_some] at hs
      obtain rfl := Option.some.inj hs.2
      have hless := (SendMsg.write_some hs.1 ha).2
      have hbytes := congrArg List.length (SendMsg.write_bytes s.client.send res)
      rw [List.length_append] at hbytes
      simp only [remaining, List.length_append]
      omega
  | serverRead res =>
      rw [Exchange.step, Option.ite_none_right_eq_some] at hs
      obtain rfl := Option.some.inj hs.2
      have hless := (RecvMsg.read_some hfine.server ha).2
      simp only [remaining]
      omega
  | handle =>
      rw [Exchange.step] at hs
      split at hs
      next message hmessage hnone =>
        cases hs
        obtain ⟨rfl, -⟩ := h.received hrequest hmessage
        simp only [remaining, hnone, if_true, List.cons_ne_nil, if_false]
        cases hserve : serve message with
        | none => simp only [Option.map_none, Option.elim_none]; omega
        | some reply =>
            simp only [Option.map_some, Option.elim_some, SendMsg.left_sendMsg (hreply reply hserve)]
            omega
      next => cases hs
  | serverWrite res =>
      rw [Exchange.step] at hs
      split at hs
      next => cases hs
      next reply hreplied =>
        rw [Option.ite_none_right_eq_some] at hs
        obtain rfl := Option.some.inj hs.2
        have hhandled : s.handled ≠ [] := (h.replied.mp (by rw [hreplied]; rfl)).1
        have hless := (SendMsg.write_some hs.1 (ha reply hreplied)).2
        have hbytes := congrArg List.length (SendMsg.write_bytes reply res)
        rw [List.length_append] at hbytes
        simp only [remaining, hhandled, hreplied, if_false, Option.elim_some, List.length_append]
        omega
  | clientRead res =>
      rw [Exchange.step, Option.ite_none_right_eq_some] at hs
      obtain rfl := Option.some.inj hs.2
      have hless := (RecvMsg.read_some hfine.recv ha).2
      simp only [remaining]
      omega

/-- An exchange that is stuck, in which no call has failed, is over. -/
theorem Stuck.over (h : Stuck serve s) (hsound : Sound serve request s) (hfine : Fine s)
    (hrequest : request.length < 2 ^ 32) (hreply : ∀ reply, serve request = some reply → reply.length < 2 ^ 32) :
    s.handled = [request] ∧ ∀ reply, serve request = some reply → s.client.returned = some (some reply) := by
  have hone {n : Nat} (hn : 0 < n) : (Outcome.count 1).some n := ⟨Nat.one_pos, hn⟩
  have hpos {bytes : Bytes} {n : Nat} (hn : 0 < n) (hne : bytes ≠ []) : 0 < min n bytes.length :=
    Nat.lt_min.mpr ⟨hn, List.length_pos_iff.mpr hne⟩
  have hsent : s.client.send.result = some true := by
    cases hc : s.client.send.result with
    | none =>
        have hnone := h (.clientWrite (.count 1)) (hone (SendMsg.length_asked_pos hc))
        rw [Exchange.step, if_pos hc] at hnone
        cases hnone
    | some ok =>
        cases ok with
        | true => rfl
        | false => exact absurd hc hfine.send
  have hout := hsound.out
  rw [SendMsg.left_of_true hsent, List.append_nil] at hout
  have hreceived : s.server.result = some (some request) := by
    cases hc : s.server.result with
    | some got =>
        cases got with
        | none => exact absurd hc hfine.server
        | some got => rw [(hsound.received hrequest hc).1]
    | none =>
        by_cases hflight : s.request = []
        · rw [hflight, List.append_nil] at hout
          rw [← hc]
          exact hsound.server.result_of_frame hfine.server hrequest hout
        · have hnone := h (.serverRead (.count 1)) (hone (hpos (hsound.server.asked_pos hc) hflight))
          rw [Exchange.step, if_pos hc] at hnone
          cases hnone
  have hhandled : s.handled = [request] := by
    rcases hsound.handled with hnone | hdone
    · have hquiet := h .handle trivial
      simp only [Exchange.step, hreceived, hnone] at hquiet
      cases hquiet
    · exact hdone.1
  refine ⟨hhandled, fun reply hserve => ?_⟩
  have hne : s.handled ≠ [] := hhandled ▸ List.cons_ne_nil _ _
  obtain ⟨c, hc⟩ := Option.isSome_iff_exists.mp (hsound.replied.mpr ⟨hne, hserve ▸ rfl⟩)
  have hwritten : c.result = some true := by
    cases hres : c.result with
    | none =>
        have hflows : Flows s (.serverWrite (.count 1)) := by
          intro c' hc'
          obtain rfl := Option.some.inj (hc.symm.trans hc')
          exact hone (SendMsg.length_asked_pos hres)
        have hnone := h _ hflows
        simp only [Exchange.step, hc, hres, if_true] at hnone
        cases hnone
    | some ok =>
        cases ok with
        | true => rfl
        | false => exact absurd hres (hfine.reply c hc)
  have hback := hsound.back
  rw [hc, Option.elim_some, SendMsg.left_of_true hwritten, List.append_nil, if_neg hne, hserve,
    Option.elim_some] at hback
  rw [Client.returned, hsent]
  by_cases hflight : s.response = []
  · rw [hflight, List.append_nil] at hback
    exact hsound.recv.result_of_frame hfine.recv (hreply reply hserve) hback
  · cases hres : s.client.recv.result with
    | none =>
        have hnone := h (.clientRead (.count 1)) (hone (hpos (hsound.recv.asked_pos hres) hflight))
        rw [Exchange.step, if_pos ⟨hsent, hres⟩] at hnone
        cases hnone
    | some got =>
        cases got with
        | none => exact absurd hres hfine.recv
        | some got =>
            have hread := hsound.recv.readFrame hres s.response
            have hframe := LengthCode.readFrame_frame (c := lengthCode) (hreply reply hserve) []
            rw [List.append_nil] at hframe
            rw [hback, hframe] at hread
            rw [(Prod.mk.inj (Option.some.inj hread)).1]

/-- Where no call fails, an exchange comes to its end after so many steps: the handler has run on the request, and the
client has the response if there is one. -/
theorem exchange_completes (hrequest : request.length < 2 ^ 32)
    (hreply : ∀ reply, serve request = some reply → reply.length < 2 ^ 32)
    (h : Run (step serve) Flows (start request) as s) :
    as.length + remaining serve request s ≤ remaining serve request (start request) ∧
      (s.Stuck serve → s.handled = [request] ∧
        ∀ reply, serve request = some reply → s.client.returned = some (some reply)) := by
  let I : Exchange → Prop := fun s => Sound serve request s ∧ Fine s
  have hstep : ∀ s a t, I s → Flows s a → s.step serve a = some t → I t := fun _ _ _ hi ha hs =>
    ⟨hi.1.step hrequest hreply ha.possible hs, hi.2.step ha hs⟩
  have hstart : I (start request) := ⟨sound_start hrequest, ⟨result_sendMsg request, nofun, nofun, nofun⟩⟩
  have hend : I s := h.invariant hstep hstart
  refine ⟨(h.with_invariant hstep hstart).length_le _ fun _ _ _ hi hs => ?_, fun hstuck => ?_⟩
  · exact remaining_step hi.1.1 hi.1.2 hrequest hreply hi.2 hs
  · exact hstuck.over hend.1 hend.2 hrequest hreply

theorem exchange_completes_pieces :
    ∃ s : Exchange,
      Run (step tagged) Flows (start [7])
          [.clientWrite (.count 2), .serverRead (.count 1), .clientWrite (.count 2), .clientWrite (.count 1),
            .serverRead (.count 3), .serverRead (.count 1), .handle, .serverWrite (.count 4), .serverWrite (.count 2),
            .clientRead (.count 3), .clientRead (.count 1), .clientRead (.count 2)] s ∧
        s.Stuck tagged ∧ s.client.returned = some (some [8, 7]) := by
  have hreply : ∀ reply, tagged [7] = some reply → reply.length < 2 ^ 32 := by rintro _ ⟨⟩; decide
  obtain ⟨s, hrun, hs⟩ := exists_run_of_exec (step tagged) Flows (start [7])
    [.clientWrite (.count 2), .serverRead (.count 1), .clientWrite (.count 2), .clientWrite (.count 1),
      .serverRead (.count 3), .serverRead (.count 1), .handle, .serverWrite (.count 4), .serverWrite (.count 2),
      .clientRead (.count 3), .clientRead (.count 1), .clientRead (.count 2)]
    (fun s => s.client.send.result = some true ∧ s.server.result ≠ none ∧ s.handled ≠ [] ∧
      (∀ c ∈ s.reply, c.result ≠ none) ∧ s.client.recv.result ≠ none) (by decide)
  obtain ⟨hsend, hserver, hhandled, hreplied, hrecv⟩ := of_decide_eq_true hs
  have hstuck : s.Stuck tagged := by
    rintro (res | res | _ | res | res) -
    · simp [step, hsend]
    · simp [step, hserver]
    · rw [step]
      split
      next _ hnone => exact absurd hnone hhandled
      next => rfl
    · rw [step]
      split
      next => rfl
      next c hc => exact if_neg (hreplied c hc)
    · simp [step, hrecv]
  exact ⟨s, hrun, hstuck, ((exchange_completes (by decide) hreply hrun).2 hstuck).2 _ rfl⟩

end Exchange

end MiniStorage.Net
