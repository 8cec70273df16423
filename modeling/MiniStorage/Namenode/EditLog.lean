import MiniStorage.Framing
import MiniStorage.LittleEndian
import MiniStorage.Engine.Stream
import MiniStorage.Namenode.NameNode

namespace MiniStorage.Namenode

open Engine Framing

/-- The four bytes of a uint32_t in network order. -/
def htonl (n : Nat) : Bytes := (LittleEndian.encode 4 n).reverse

def ntohl (bytes : Bytes) : Nat := LittleEndian.decode bytes.reverse

theorem ntohl_htonl {n : Nat} (h : n < 2 ^ 32) : ntohl (htonl n) = n := by
  rw [ntohl, htonl, List.reverse_reverse, LittleEndian.decode_encode_of_lt (by omega)]

namespace EditLog

variable (w : Wire NameNodeRequest)

def append (log : OFStream) (op : NameNodeRequest) : Bool × OFStream :=
  match w.serialize op with
  | none => (false, log)
  | some data =>
      let log := ((log.write (htonl data.length)).write data).flush
      (log.good, log)

/-- The operations that Replay hands to its callback. The loop goes on as long as a length and that many bytes follow. -/
def replayFrom : Nat → IFStream → List NameNodeRequest
  | 0, _ => []
  | fuel + 1, file =>
      let (head, file) := file.read 4
      if head.length ≠ 4 then []
      else
        let (bytes, file) := file.read (ntohl head)
        if bytes.length ≠ ntohl head then []
        else (w.parse bytes).toList ++ replayFrom fuel file

/-- Every turn takes four bytes at least. -/
def replay (log : Bytes) : List NameNodeRequest := replayFrom w (log.length + 1) { bytes := log }

/-- What Append adds for one operation. -/
def record (op : NameNodeRequest) : Bytes :=
  match w.serialize op with
  | none => []
  | some data => htonl data.length ++ data

/-- An operation that Replay can read back: protobuf does not serialize to 2 GiB or more. -/
def Loggable (op : NameNodeRequest) : Prop :=
  ∃ data, w.serialize op = some data ∧ data.length < 2 ^ 32 ∧ w.parse data = some op

variable {w}

theorem length_htonl (n : Nat) : (htonl n).length = 4 := by simp [htonl]

theorem append_bytes {log : OFStream} (op : NameNodeRequest) (hgood : log.good = true) (hroom : log.room = none) :
    (append w log op).2.bytes = log.bytes ++ record w op ∧ (append w log op).2.good = true ∧
      (append w log op).2.room = none := by
  rw [append, record]
  cases hser : w.serialize op with
  | none => exact ⟨(List.append_nil _).symm, hgood, hroom⟩
  | some data => simp [OFStream.write, OFStream.flush, hgood, hroom]

end EditLog

/-- Four bytes of length in network order in front of a string. -/
def lengthCode : LengthCode UInt8 where
  encode := htonl
  decode := ntohl
  width := 4
  bound := 2 ^ 32
  width_pos := by decide
  length_encode := EditLog.length_htonl
  decode_encode := fun _ => ntohl_htonl

theorem readFrame_lengthCode (buf : Bytes) :
    lengthCode.readFrame buf =
      if buf.length < 4 then none
      else if buf.length < 4 + ntohl (buf.take 4) then none
      else some ((buf.drop 4).take (ntohl (buf.take 4)), buf.drop (4 + ntohl (buf.take 4))) := rfl

namespace EditLog

variable {w : Wire NameNodeRequest} {ops : List NameNodeRequest} {op : NameNodeRequest} {tail : Bytes}

/-- Replay reads frame by frame and hands over those that parse. -/
theorem replayFrom_eq (fuel : Nat) {file : IFStream} (hf : file.failed = false) :
    replayFrom w fuel file = (lengthCode.readFrames fuel file.rest).flatMap fun bytes => (w.parse bytes).toList := by
  induction fuel generalizing file with
  | zero => rfl
  | succ fuel ih =>
      have hunread : file.unread = file.rest := by simp [IFStream.unread, hf]
      rw [replayFrom, LengthCode.readFrames, readFrame_lengthCode]
      simp only [IFStream.read_fst, IFStream.unread_read, hunread, List.length_take]
      by_cases hhead : file.rest.length < 4
      · rw [if_pos (by omega), if_pos hhead]
        rfl
      · rw [if_neg (by omega), if_neg hhead, List.length_drop]
        by_cases hbytes : file.rest.length < 4 + ntohl (file.rest.take 4)
        · rw [if_pos (by omega), if_pos hbytes]
          rfl
        · have hf' : ((file.read 4).2.read (ntohl (file.rest.take 4))).2.failed = false := by
            rw [(IFStream.read_snd _ _).2, (IFStream.read_snd _ _).2, hf, hunread, IFStream.unread_read, hunread,
              List.length_drop]
            simp only [Bool.false_or, Bool.or_eq_false_iff, decide_eq_false_iff_not]
            omega
          have hrest : ((file.read 4).2.read (ntohl (file.rest.take 4))).2.rest =
              file.rest.drop (4 + ntohl (file.rest.take 4)) := by
            have hunread' := IFStream.unread_read (file.read 4).2 (ntohl (file.rest.take 4))
            rw [IFStream.unread, hf', if_neg Bool.false_ne_true, IFStream.unread_read, hunread, List.drop_drop] at hunread'
            exact hunread'
          rw [if_neg (by omega), if_neg hbytes, ih hf', hrest]
          rfl

/-- The bytes of an operation. -/
def wireBytes (w : Wire NameNodeRequest) (op : NameNodeRequest) : Bytes := (w.serialize op).getD []

theorem Loggable.wireBytes (h : Loggable w op) :
    record w op = lengthCode.frame (wireBytes w op) ∧ (wireBytes w op).length < lengthCode.bound ∧
      w.parse (wireBytes w op) = some op := by
  obtain ⟨data, hser, hlen, hparse⟩ := h
  rw [record, EditLog.wireBytes, hser]
  exact ⟨rfl, hlen, hparse⟩

theorem length_wireBytes_lt (hops : ∀ op ∈ ops, Loggable w op) :
    ∀ m ∈ ops.map (wireBytes w), m.length < lengthCode.bound := by
  intro m hm
  obtain ⟨op, hop, rfl⟩ := List.mem_map.mp hm
  exact (hops op hop).wireBytes.2.1

theorem flatMap_record (hops : ∀ op ∈ ops, Loggable w op) :
    ops.flatMap (record w) = lengthCode.frames (ops.map (wireBytes w)) := by
  rw [LengthCode.frames, List.flatMap_map]
  exact List.flatMap_congr fun op hop => (hops op hop).wireBytes.1

/-- Replay reads what Append wrote, and nothing of an operation cut short behind it. -/
theorem replay_torn (hops : ∀ op ∈ ops, Loggable w op) (htail : lengthCode.readFrame tail = none) :
    replay w (ops.flatMap (record w) ++ tail) = ops := by
  have hfuel : (ops.map (wireBytes w)).length < (ops.flatMap (record w) ++ tail).length + 1 := by
    have hlen := LengthCode.length_le_frames (c := lengthCode) (ops.map (wireBytes w))
    rw [flatMap_record hops, List.length_append]
    omega
  rw [replay, replayFrom_eq _ rfl]
  have hframes : IFStream.rest { bytes := ops.flatMap (record w) ++ tail } =
      lengthCode.frames (ops.map (wireBytes w)) ++ tail := by rw [← flatMap_record hops]; rfl
  rw [hframes, LengthCode.readFrames_frames (length_wireBytes_lt hops) htail hfuel, List.flatMap_map]
  have hparse : ∀ op ∈ ops, (w.parse (wireBytes w op)).toList = [op] := fun op hop => by
    rw [(hops op hop).wireBytes.2.2]
    rfl
  rw [List.flatMap_congr hparse, List.flatMap_singleton']

/-- What Append wrote is what Replay reads. -/
theorem replay_records (hops : ∀ op ∈ ops, Loggable w op) : replay w (ops.flatMap (record w)) = ops := by
  have h := @replay_torn w ops [] hops rfl
  rwa [List.append_nil] at h

end EditLog

end MiniStorage.Namenode
