import MiniStorage.Net.TcpConnection
import MiniStorage.Runs

namespace MiniStorage.Net

open Namenode Framing Runs

/-- One direction between two connections: what was sent, what write has taken and read not yet given out,
what msg_cb_ was handed, and whether ProcessMessages is running. -/
structure Link where
  sender : TcpConnection := .start {}
  receiver : TcpConnection := .start {}
  arriving : Bytes := []
  sent : List Bytes := []
  delivered : List Bytes := []
  processing : Bool := false
deriving DecidableEq, Repr

inductive Action
  | send (data : Bytes) (res : Outcome)
  | handleWrite (res : Outcome)
  | handleRead (res : Outcome)
  | processMessage
deriving DecidableEq, Repr

namespace Link

def step (s : Link) : Action → Option Link
  | .send data res =>
      let (bytes, c) := s.sender.send data res
      some { s with sender := c, arriving := s.arriving ++ bytes, sent := s.sent ++ [data] }
  | .handleWrite res =>
      if s.sender.channel.writing then
        let (bytes, c) := s.sender.handleWrite res
        some { s with sender := c, arriving := s.arriving ++ bytes }
      else none
  | .handleRead res =>
      if s.receiver.channel.reading && !s.processing then
        let (processing, c, arriving) := s.receiver.handleRead s.arriving res
        some { s with receiver := c, arriving, processing }
      else none
  | .processMessage =>
      if s.processing then
        match s.receiver.processMessage with
        | none => some { s with processing := false }
        | some (message, c) => some { s with receiver := c, delivered := s.delivered ++ [message] }
      else none

end Link

/-- Neither an error nor more than was asked for. -/
def Outcome.within (asked : Nat) : Outcome → Prop
  | .count n => n ≤ asked
  | .wouldBlock => True
  | .failed => False

instance (asked : Nat) (res : Outcome) : Decidable (res.within asked) := by
  cases res <;> unfold Outcome.within <;> infer_instance

theorem Outcome.within.ne_failed {asked : Nat} {res : Outcome} (h : res.within asked) : res ≠ .failed := by
  rintro rfl
  exact h

namespace Link

/-- The size of buf in HandleRead. -/
def bufSize : Nat := 4096

/-- Messages of fewer than 2^32 bytes, writes that are short or would block, reads of any size, no end of the stream. -/
def Sound (s : Link) : Action → Prop
  | .send data res => data.length < 2 ^ 32 ∧ res.within (4 + data.length)
  | .handleWrite res => res.within s.sender.writeBuf.length
  | .handleRead res => res.within (min bufSize s.arriving.length) ∧ res ≠ .count 0
  | .processMessage => True

/-- And the messages fit uint32_t with their header. -/
def Fitting (s : Link) (a : Action) : Prop :=
  Sound s a ∧ ∀ data res, a = .send data res → Fits data

/-- Of the messages sent some were handed over. The bytes of the others are on their way, in order. -/
structure Ordered (s : Link) : Prop where
  fits : ∀ m ∈ s.sent, Fits m
  stream : ∃ left, s.sent = s.delivered ++ left ∧
    s.receiver.readBuf ++ (s.arriving ++ s.sender.writeBuf) = lengthCode.frames left
  idle : s.processing = false → lengthCode.readFrame s.receiver.readBuf = none

variable {s t : Link} {a : Action} {as : List Action}

theorem Ordered.bound (h : Ordered s) {left : List Bytes} (hleft : s.sent = s.delivered ++ left) :
    ∀ m ∈ left, m.length < lengthCode.bound := by
  intro m hm
  have hfits := h.fits m (by rw [hleft]; exact List.mem_append_right _ hm)
  exact Nat.lt_of_le_of_lt (Nat.le_add_right _ 4) hfits

theorem ordered_start : Ordered {} where
  fits := by intro m hm; cases hm
  stream := ⟨[], rfl, rfl⟩
  idle := fun _ => rfl

theorem Ordered.send (h : Ordered s) {data : Bytes} {res : Outcome} (hfits : Fits data) (hres : res ≠ .failed) :
    Ordered { s with
      sender := (s.sender.send data res).2
      arriving := s.arriving ++ (s.sender.send data res).1
      sent := s.sent ++ [data] } := by
  obtain ⟨left, hsent, hstream⟩ := h.stream
  have hbytes := TcpConnection.send_bytes (c := s.sender)
    (Nat.lt_of_le_of_lt (Nat.le_add_right data.length 4) hfits) hres
  refine ⟨?_, ⟨left ++ [data], ?_, ?_⟩, h.idle⟩
  · intro m hm
    rcases List.mem_append.mp hm with hm | hm
    · exact h.fits m hm
    · rw [List.mem_singleton.mp hm]
      exact hfits
  · rw [hsent, List.append_assoc]
  · calc s.receiver.readBuf ++
          (s.arriving ++ (s.sender.send data res).1 ++ (s.sender.send data res).2.writeBuf)
        = s.receiver.readBuf ++ (s.arriving ++ s.sender.writeBuf) ++ lengthCode.frame data := by
          simp only [List.append_assoc, hbytes]
      _ = lengthCode.frames (left ++ [data]) := by
          rw [hstream, LengthCode.frames_append, LengthCode.frames_cons, LengthCode.frames_nil, List.append_nil]

theorem Ordered.handleWrite (h : Ordered s) {res : Outcome} :
    Ordered { s with
      sender := (s.sender.handleWrite res).2
      arriving := s.arriving ++ (s.sender.handleWrite res).1 } := by
  obtain ⟨left, hsent, hstream⟩ := h.stream
  have hbytes := TcpConnection.handleWrite_bytes s.sender res
  exact ⟨h.fits, ⟨left, hsent, by rw [List.append_assoc, hbytes, hstream]⟩, h.idle⟩

theorem Ordered.handleRead (h : Ordered s) (hidle : s.processing = false) {res : Outcome} :
    Ordered { s with
      receiver := (s.receiver.handleRead s.arriving res).2.1
      arriving := (s.receiver.handleRead s.arriving res).2.2
      processing := (s.receiver.handleRead s.arriving res).1 } := by
  obtain ⟨left, hsent, hstream⟩ := h.stream
  refine ⟨h.fits, ⟨left, hsent, ?_⟩, ?_⟩
  · rw [← hstream, ← List.append_assoc, ← List.append_assoc, TcpConnection.handleRead_bytes]
  · intro hquiet
    rw [← h.idle hidle]
    cases res with
    | count n => by_cases hn : 0 < n <;> simp_all [TcpConnection.handleRead, TcpConnection.handleClose]
    | wouldBlock | failed => rfl

/-- A turn of ProcessMessages hands over the message that is next, or finds the buffer short of it. -/
theorem Ordered.processMessage (h : Ordered s) (hs : s.step .processMessage = some t) : Ordered t := by
  obtain ⟨left, hsent, hstream⟩ := h.stream
  rw [step, Option.ite_none_right_eq_some] at hs
  obtain ⟨hrunning, hs⟩ := hs
  rcases LengthCode.readFrame_part (h.bound hsent) hstream with ⟨hnone, -⟩ | ⟨m, left', buf, rfl, hread, hrest⟩
  · rw [TcpConnection.processMessage_eq_none hnone] at hs
    cases hs
    exact ⟨h.fits, ⟨left, hsent, hstream⟩, fun _ => hnone⟩
  · have hfits : Fits m := h.fits m (by simp [hsent])
    rw [TcpConnection.processMessage_eq_some hread hfits] at hs
    cases hs
    refine ⟨h.fits, ⟨left', ?_, hrest⟩, ?_⟩
    · rw [hsent, List.append_assoc, List.singleton_append]
    · intro hquiet
      rw [hrunning] at hquiet
      cases hquiet

theorem Ordered.step (h : Ordered s) (ha : Fitting s a) (hs : s.step a = some t) : Ordered t := by
  cases a with
  | send data res =>
      cases hs
      exact h.send (ha.2 data res rfl) ha.1.2.ne_failed
  | handleWrite res =>
      rw [Link.step, Option.ite_none_right_eq_some] at hs
      cases hs.2
      exact h.handleWrite
  | handleRead res =>
      simp only [Link.step, Option.ite_none_right_eq_some, Bool.and_eq_true, Bool.not_eq_true'] at hs
      cases hs.2
      exact h.handleRead hs.1.2
  | processMessage => exact h.processMessage hs

theorem ordered_of_run (h : Run step Fitting {} as s) : Ordered s :=
  h.invariant (fun _ _ _ hi ha hs => Ordered.step hi ha hs) ordered_start

/-- What msg_cb_ was handed is a prefix of what was sent. Once everything is written and read, ProcessMessages, where it
still runs, comes back after the rest, and has handed over everything where it does not run any more. -/
theorem delivered_isPrefix (h : Run step Fitting {} as s) :
    s.delivered <+: s.sent ∧
      (s.sender.writeBuf = [] → s.arriving = [] →
        (∃ fuel left c, s.receiver.processMessages fuel = some (left, c) ∧ s.delivered ++ left = s.sent) ∧
          (s.processing = false → s.delivered = s.sent)) := by
  have ho := ordered_of_run h
  obtain ⟨left, hsent, hstream⟩ := ho.stream
  refine ⟨⟨left, hsent.symm⟩, ?_⟩
  intro hwritten hread
  rw [hwritten, hread, List.append_nil] at hstream
  have hfits : ∀ m ∈ left, Fits m := fun m hm => ho.fits m (by rw [hsent]; exact List.mem_append_right _ hm)
  constructor
  · obtain ⟨done, left', c, rfl, hdone, hall⟩ :=
      TcpConnection.processMessages_part hfits hstream (Nat.lt_succ_self left.length)
    refine ⟨_, _, _, hdone, ?_⟩
    rw [hsent, hall rfl, List.append_nil]
  · intro hquiet
    rcases LengthCode.readFrame_part (ho.bound hsent) hstream with ⟨-, hnil⟩ | ⟨m, left', buf, -, hsome, -⟩
    · rw [hsent, hnil rfl, List.append_nil]
    · rw [ho.idle hquiet] at hsome
      cases hsome

instance (s : Link) (a : Action) : Decidable (Sound s a) := by
  cases a <;> unfold Sound <;> infer_instance

instance (s : Link) (a : Action) : Decidable (Fitting s a) :=
  match a with
  | .send data res =>
      decidable_of_iff (Sound s (.send data res) ∧ Fits data)
        ⟨fun h => ⟨h.1, by rintro _ _ ⟨⟩; exact h.2⟩, fun h => ⟨h.1, h.2 data res rfl⟩⟩
  | .handleWrite res => decidable_of_iff (Sound s (.handleWrite res)) ⟨fun h => ⟨h, nofun⟩, And.left⟩
  | .handleRead res => decidable_of_iff (Sound s (.handleRead res)) ⟨fun h => ⟨h, nofun⟩, And.left⟩
  | .processMessage => decidable_of_iff (Sound s .processMessage) ⟨fun h => ⟨h, nofun⟩, And.left⟩

/-- Two messages whose bytes come in pieces, cut inside a length. -/
theorem delivered_isPrefix_pieces :
    ∃ s, Run step Fitting {}
        [.send [1] (.count 2), .send [2, 3] .wouldBlock, .handleRead (.count 2), .processMessage, .handleWrite (.count 9),
          .handleRead (.count 4), .processMessage, .processMessage, .handleRead (.count 5)] s ∧
      s.sender.writeBuf = [] ∧ s.arriving = [] ∧ s.delivered = [[1]] ∧
      ∃ fuel left c, s.receiver.processMessages fuel = some (left, c) ∧ s.delivered ++ left = s.sent := by
  obtain ⟨s, hrun, hs⟩ := exists_run_of_exec step Fitting {}
    [.send [1] (.count 2), .send [2, 3] .wouldBlock, .handleRead (.count 2), .processMessage, .handleWrite (.count 9),
      .handleRead (.count 4), .processMessage, .processMessage, .handleRead (.count 5)]
    (fun s => s.sender.writeBuf = [] ∧ s.arriving = [] ∧ s.delivered = [[1]]) (by decide)
  obtain ⟨hwritten, hread, hdelivered⟩ := of_decide_eq_true hs
  exact ⟨s, hrun, hwritten, hread, hdelivered, ((delivered_isPrefix hrun).2 hwritten hread).1⟩

/-- The bytes of one frame come in, 4096 at a time. -/
theorem exists_run_gather {data : Bytes} (hdata : data.length < 2 ^ 32) {n : Nat} {s : Link}
    (hn : s.arriving.length = n + 1) (hreading : s.receiver.channel.reading = true) (hidle : s.processing = false)
    (hframe : s.receiver.readBuf ++ s.arriving = lengthCode.frame data) :
    ∃ as, Run step Sound s as
      { s with receiver := { s.receiver with readBuf := lengthCode.frame data }, arriving := [], processing := true } := by
  induction n using Nat.strongRecOn generalizing s with
  | ind n ih =>
      let k := min bufSize s.arriving.length
      have hpos : 0 < k := by simp only [k, bufSize, hn]; omega
      let s₁ : Link := { s with
        receiver := { s.receiver with readBuf := s.receiver.readBuf ++ s.arriving.take k }
        arriving := s.arriving.drop k
        processing := true }
      have hread : s.step (.handleRead (.count k)) = some s₁ := by
        simp [step, hreading, hidle, TcpConnection.handleRead, hpos, s₁]
      have hsound : Sound s (.handleRead (.count k)) :=
        ⟨Nat.le_refl k, fun h => absurd (Outcome.count.inj h) (Nat.ne_of_gt hpos)⟩
      have hjoin : s₁.receiver.readBuf ++ s₁.arriving = lengthCode.frame data := by
        rw [← hframe]
        simp only [s₁, List.append_assoc, List.take_append_drop]
      cases hleft : s₁.arriving.length with
      | zero =>
          rw [List.length_eq_zero_iff] at hleft
          refine ⟨[.handleRead (.count k)], ?_⟩
          rw [hleft, List.append_nil] at hjoin
          have hs₁ : s₁ = { s with
              receiver := { s.receiver with readBuf := lengthCode.frame data }, arriving := [], processing := true } := by
            rw [← hjoin, ← hleft]
          rw [← hs₁]
          exact .single hsound hread
      | succ n' =>
          have hshort : s₁.receiver.readBuf.length < (lengthCode.frame data).length := by
            have hlen := congrArg List.length hjoin
            rw [List.length_append, hleft] at hlen
            omega
          have hnone := TcpConnection.processMessage_eq_none (LengthCode.readFrame_torn hdata ⟨_, hjoin⟩ hshort)
          let s₂ : Link := { s₁ with processing := false }
          have hturn : s₁.step .processMessage = some s₂ := by simp only [step, hnone]; rfl
          have hless : n' < n := by
            have hdrop : s₁.arriving.length = s.arriving.length - k := List.length_drop
            omega
          obtain ⟨as, hrun⟩ := ih n' hless (s := s₂) hleft hreading rfl hjoin
          have htwo : Run step Sound s [.handleRead (.count k), .processMessage] s₂ :=
            (Run.single hsound hread).append (.single trivial hturn)
          exact ⟨_, htwo.append hrun⟩

/-- A turn on a message of 2^32 - 4 bytes erases nothing. -/
theorem run_processMessage_again {data : Bytes} (hdata : data.length = 2 ^ 32 - 4) (hrunning : s.processing = true)
    (hbuf : s.receiver.readBuf = lengthCode.frame data) :
    Run step Sound s [.processMessage] { s with delivered := s.delivered ++ [data] } := by
  have hlt : data.length < lengthCode.bound := hdata ▸ Nat.sub_lt (Nat.two_pow_pos 32) (by decide)
  have hread : lengthCode.readFrame s.receiver.readBuf = some (data, []) := by
    rw [hbuf, ← List.append_nil (lengthCode.frame data), LengthCode.readFrame_frame hlt]
  obtain ⟨-, hturn⟩ := TcpConnection.processMessage_of_readFrame hread
  have herase : (data.length + 4) % 2 ^ 32 = 0 := by
    rw [hdata, Nat.sub_add_cancel (by decide), Nat.mod_self]
  rw [herase, List.drop_zero] at hturn
  refine .single trivial ?_
  simp only [step, hrunning, hturn, if_true]

/-- The length of 2^32 - 4 bytes and of the four before them is 0 as a uint32_t, so the message stays in the buffer. -/
theorem not_delivered_isPrefix : ¬ ∀ as s, Run step Sound {} as s → s.delivered <+: s.sent := by
  intro hclaim
  obtain ⟨data, hdata⟩ : ∃ data : Bytes, data.length = 2 ^ 32 - 4 := ⟨.replicate (2 ^ 32 - 4) 0, List.length_replicate⟩
  have hlt : data.length < 2 ^ 32 := hdata ▸ Nat.sub_lt (Nat.two_pow_pos 32) (by decide)
  let s₀ : Link := { arriving := lengthCode.frame data, sent := [data] }
  have hframe : htonl (data.length % 2 ^ 32) ++ data = lengthCode.frame data := by
    rw [Nat.mod_eq_of_lt hlt]
    rfl
  have hsend : step {} (.send data (.count (4 + data.length))) = some s₀ := by
    have hlen : (lengthCode.frame data).length = 4 + data.length := LengthCode.length_frame data
    simp only [step, TcpConnection.send, TcpConnection.start, hframe, hlen, Nat.lt_irrefl, if_false, ne_eq,
      not_true_eq_false, List.take_of_length_le (Nat.le_of_eq hlen)]
    rfl
  have hsound : Sound {} (.send data (.count (4 + data.length))) := ⟨hlt, Nat.le_refl _⟩
  have hfirst : Run step Sound {} [.send data (.count (4 + data.length))] s₀ := .single hsound hsend
  obtain ⟨as, hgather⟩ := exists_run_gather (n := 3 + data.length) hlt (s := s₀)
    (by rw [LengthCode.length_frame]; simp only [lengthCode]; omega) rfl rfl rfl
  have honce := (hfirst.append hgather).append (run_processMessage_again hdata rfl rfl)
  have hrun := honce.append (run_processMessage_again hdata rfl rfl)
  have hlen := (hclaim _ _ hrun).length_le
  exact absurd hlen (by simp [s₀])

end Link

end MiniStorage.Net
