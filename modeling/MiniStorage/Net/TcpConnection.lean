import MiniStorage.Namenode.EditLog

namespace MiniStorage.Net

open Namenode Framing

/-- events_: EPOLLIN and EPOLLOUT. -/
structure Channel where
  reading : Bool := false
  writing : Bool := false
deriving DecidableEq, Repr

namespace Channel

def enableReading (c : Channel) : Channel := { c with reading := true }

def disableReading (c : Channel) : Channel := { c with reading := false }

def enableWriting (c : Channel) : Channel := { c with writing := true }

def disableWriting (c : Channel) : Channel := { c with writing := false }

def disableAll (_ : Channel) : Channel := {}

end Channel

/-- What read or write says on a non-blocking socket. -/
inductive Outcome
  | count (n : Nat)
  | wouldBlock
  | failed
deriving DecidableEq, Repr

structure TcpConnection where
  channel : Channel := {}
  readBuf : Bytes := []
  writeBuf : Bytes := []
deriving DecidableEq, Repr

namespace TcpConnection

def start (c : TcpConnection) : TcpConnection := { c with channel := c.channel.enableReading }

def handleClose (c : TcpConnection) : TcpConnection := { c with channel := c.channel.disableAll }

/-- With the bytes that write took. -/
def send (c : TcpConnection) (data : Bytes) (res : Outcome) : Bytes × TcpConnection :=
  let framed := htonl (data.length % 2 ^ 32) ++ data
  let buffer := fun n =>
    if n < framed.length then
      { c with writeBuf := c.writeBuf ++ framed.drop n, channel := c.channel.enableWriting }
    else c
  if c.writeBuf ≠ [] then ([], { c with writeBuf := c.writeBuf ++ framed })
  else
    match res with
    | .count n => (framed.take n, buffer n)
    | .wouldBlock => ([], buffer 0)
    | .failed => ([], c.handleClose)

def handleWrite (c : TcpConnection) (res : Outcome) : Bytes × TcpConnection :=
  if c.writeBuf = [] then ([], { c with channel := c.channel.disableWriting })
  else
    match res with
    | .count n =>
        if 0 < n then
          let writeBuf := c.writeBuf.drop n
          (c.writeBuf.take n,
            { c with writeBuf, channel := if writeBuf = [] then c.channel.disableWriting else c.channel })
        else ([], c)
    | .wouldBlock => ([], c)
    | .failed => ([], c.handleClose)

/-- One turn of the loop of HandleRead up to the call of ProcessMessages, with what is left of the bytes that have
arrived. The flag says that ProcessMessages is called. -/
def handleRead (c : TcpConnection) (arrived : Bytes) (res : Outcome) : Bool × TcpConnection × Bytes :=
  match res with
  | .count n =>
      if 0 < n then (true, { c with readBuf := c.readBuf ++ arrived.take n }, arrived.drop n)
      else (false, c.handleClose, arrived)
  | .wouldBlock => (false, c, arrived)
  | .failed => (false, c.handleClose, arrived)

/-- One turn of the loop of ProcessMessages with the message for msg_cb_; nothing where the loop ends.
The length of what is erased is a uint32_t. -/
def processMessage (c : TcpConnection) : Option (Bytes × TcpConnection) :=
  if c.readBuf.length < 4 then none
  else
    let msgLen := ntohl (c.readBuf.take 4)
    if c.readBuf.length < 4 + msgLen then none
    else some ((c.readBuf.drop 4).take msgLen, { c with readBuf := c.readBuf.drop ((msgLen + 4) % 2 ^ 32) })

/-- The whole loop with the messages for msg_cb_; nothing where it takes more turns than there is fuel. -/
def processMessages : Nat → TcpConnection → Option (List Bytes × TcpConnection)
  | 0, _ => none
  | fuel + 1, c =>
      match c.processMessage with
      | none => some ([], c)
      | some (message, c) => (processMessages fuel c).map fun (rest, c) => (message :: rest, c)

end TcpConnection

/-- A message whose length and header together still fit uint32_t. -/
def Fits (message : Bytes) : Prop := message.length + 4 < 2 ^ 32

instance (message : Bytes) : Decidable (Fits message) := inferInstanceAs (Decidable (_ < _))

namespace TcpConnection

variable {c c' : TcpConnection} {message : Bytes}

theorem processMessage_eq_none (h : lengthCode.readFrame c.readBuf = none) : c.processMessage = none := by
  rw [readFrame_lengthCode] at h
  rw [processMessage]
  split at h
  next hshort => rw [if_pos hshort]
  next hshort =>
    rw [if_neg hshort]
    split at h
    next hpart => exact if_pos hpart
    next hpart => cases h

theorem processMessage_of_readFrame {rest : Bytes} (h : lengthCode.readFrame c.readBuf = some (message, rest)) :
    rest = c.readBuf.drop (4 + message.length) ∧
      c.processMessage = some (message, { c with readBuf := c.readBuf.drop ((message.length + 4) % 2 ^ 32) }) := by
  rw [readFrame_lengthCode] at h
  split at h
  next hshort => cases h
  next hshort =>
    split at h
    next hpart => cases h
    next hpart =>
      obtain ⟨hmessage, hrest⟩ := Prod.mk.inj (Option.some.inj h)
      have hlen : ntohl (c.readBuf.take 4) = message.length := by
        rw [← hmessage, List.length_take, List.length_drop]
        omega
      rw [hlen] at hpart hmessage hrest
      rw [processMessage, if_neg hshort]
      simp only [hlen, if_neg hpart, hmessage]
      exact ⟨hrest.symm, trivial⟩

/-- The turn takes the first frame off the buffer if that is not too long. -/
theorem processMessage_eq_some {rest : Bytes} (h : lengthCode.readFrame c.readBuf = some (message, rest))
    (hfits : Fits message) :
    c.processMessage = some (message, { c with readBuf := rest }) := by
  obtain ⟨hrest, hturn⟩ := processMessage_of_readFrame h
  rw [hturn, hrest, Nat.mod_eq_of_lt hfits, Nat.add_comm]

/-- Once everything has come, the loop hands over every message. With a part of the bytes it hands over a part. -/
theorem processMessages_part {ms : List Bytes} (hms : ∀ m ∈ ms, Fits m) {tail : Bytes}
    (h : c.readBuf ++ tail = lengthCode.frames ms) {fuel : Nat} (hfuel : ms.length < fuel) :
    ∃ done left c', ms = done ++ left ∧ c.processMessages fuel = some (done, c') ∧ (tail = [] → left = []) := by
  induction ms generalizing c fuel with
  | nil =>
      cases fuel with
      | zero => cases hfuel
      | succ fuel =>
          have hbuf : c.readBuf = [] := (List.append_eq_nil_iff.mp h).1
          have hnone : c.processMessage = none := by rw [processMessage, hbuf]; rfl
          exact ⟨[], [], c, rfl, by rw [processMessages, hnone], fun _ => rfl⟩
  | cons m ms ih =>
      cases fuel with
      | zero => cases hfuel
      | succ fuel =>
          have hbound : ∀ m' ∈ m :: ms, m'.length < lengthCode.bound := fun m' hm' =>
            Nat.lt_of_le_of_lt (Nat.le_add_right _ 4) (hms m' hm')
          rcases LengthCode.readFrame_part hbound h with ⟨hnone, hall⟩ | ⟨m', ms', buf, heq, hread, hrest⟩
          · refine ⟨[], m :: ms, c, rfl, ?_, hall⟩
            rw [processMessages, processMessage_eq_none hnone]
          · obtain ⟨rfl, rfl⟩ := List.cons.inj heq
            have hturn := processMessage_eq_some hread (hms m List.mem_cons_self)
            obtain ⟨done, left, c', rfl, hdone, hall⟩ :=
              ih (fun m' hm' => hms m' (List.mem_cons_of_mem _ hm')) (c := { c with readBuf := buf }) hrest
                (Nat.lt_of_succ_lt_succ hfuel)
            refine ⟨m :: done, left, c', rfl, ?_, hall⟩
            rw [processMessages, hturn]
            simp only [hdone, Option.map_some]

/-- What was waiting and the new frame, in this order, are written or wait. -/
theorem send_bytes {data : Bytes} (hdata : data.length < 2 ^ 32) {res : Outcome} (hres : res ≠ .failed) :
    (c.send data res).1 ++ (c.send data res).2.writeBuf = c.writeBuf ++ lengthCode.frame data := by
  have hframe : htonl (data.length % 2 ^ 32) ++ data = lengthCode.frame data := by
    rw [Nat.mod_eq_of_lt hdata]
    rfl
  simp only [send, hframe]
  by_cases hempty : c.writeBuf = []
  · rw [if_neg (not_not.mpr hempty), hempty]
    cases res with
    | count n =>
        by_cases hn : n < (lengthCode.frame data).length
        · simp only [if_pos hn, List.nil_append, List.take_append_drop]
        · simp only [if_neg hn, List.take_of_length_le (Nat.le_of_not_lt hn), hempty, List.append_nil, List.nil_append]
    | wouldBlock =>
        have hpos : 0 < (lengthCode.frame data).length := by
          rw [LengthCode.length_frame]
          exact Nat.add_pos_left lengthCode.width_pos _
        simp only [if_pos hpos, List.drop_zero, List.nil_append]
    | failed => exact absurd rfl hres
  · rw [if_pos hempty]
    rfl

theorem handleWrite_bytes (c : TcpConnection) (res : Outcome) :
    (c.handleWrite res).1 ++ (c.handleWrite res).2.writeBuf = c.writeBuf := by
  by_cases hempty : c.writeBuf = []
  · simp [handleWrite, hempty]
  · cases res with
    | count n => by_cases hn : 0 < n <;> simp [handleWrite, hempty, hn]
    | wouldBlock | failed => simp [handleWrite, hempty, handleClose]

theorem handleRead_bytes {arrived : Bytes} {res : Outcome} :
    (c.handleRead arrived res).2.1.readBuf ++ (c.handleRead arrived res).2.2 = c.readBuf ++ arrived := by
  cases res with
  | count n => by_cases hn : 0 < n <;> simp [handleRead, hn, handleClose]
  | wouldBlock => rfl
  | failed => rfl

end TcpConnection

end MiniStorage.Net
