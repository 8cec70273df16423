import MiniStorage.Net.Link

namespace MiniStorage.Net

open Namenode Framing

/-- The loop of WriteAll: what is left to write, and whether it has returned false. -/
structure WriteAll where
  p : Bytes
  failed : Bool := false
deriving DecidableEq, Repr

/-- The loop of ReadAll: what has been read, how much is left, and whether it has returned false. -/
structure ReadAll where
  buf : Bytes := []
  n : Nat
  failed : Bool := false
deriving DecidableEq, Repr

/-- One turn, with the bytes that write took. -/
def WriteAll.turn (c : WriteAll) : Outcome → Bytes × WriteAll
  | .count w => if 0 < w then (c.p.take w, { c with p := c.p.drop w }) else ([], { c with failed := true })
  | .wouldBlock | .failed => ([], { c with failed := true })

/-- One turn, with what is left of the bytes that have arrived. -/
def ReadAll.turn (c : ReadAll) (arrived : Bytes) : Outcome → ReadAll × Bytes
  | .count r =>
      if 0 < r then ({ c with buf := c.buf ++ arrived.take r, n := c.n - r }, arrived.drop r)
      else ({ c with failed := true }, arrived)
  | .wouldBlock | .failed => ({ c with failed := true }, arrived)

/-- A call of SendMsg: WriteAll of the length, then WriteAll of the data. -/
structure SendMsg where
  len : WriteAll
  data : WriteAll
deriving DecidableEq, Repr

/-- A call of RecvMsg: ReadAll of the length, then ReadAll of so many bytes. -/
structure RecvMsg where
  len : ReadAll := { n := 4 }
  data : Option ReadAll := none
deriving DecidableEq, Repr

def sendMsg (data : Bytes) : SendMsg := ⟨{ p := htonl (data.length % 2 ^ 32) }, { p := data }⟩

namespace SendMsg

/-- What the call returns, once it does. -/
def result (c : SendMsg) : Option Bool :=
  if c.len.failed || c.data.failed then some false
  else if c.len.p = [] ∧ c.data.p = [] then some true
  else none

/-- What the next call of write is asked to take. -/
def asked (c : SendMsg) : Bytes := if c.len.p = [] then c.data.p else c.len.p

/-- The next call of write, before SendMsg has returned. -/
def write (c : SendMsg) (res : Outcome) : Bytes × SendMsg :=
  if c.len.p = [] then
    let (bytes, data) := c.data.turn res
    (bytes, { c with data })
  else
    let (bytes, len) := c.len.turn res
    (bytes, { c with len })

def left (c : SendMsg) : Bytes := c.len.p ++ c.data.p

end SendMsg

namespace RecvMsg

/-- The message or false, once the call returns. -/
def result (c : RecvMsg) : Option (Option Bytes) :=
  if c.len.failed then some none
  else
    match c.data with
    | none => none
    | some d => if d.failed then some none else if d.n = 0 then some (some d.buf) else none

/-- How much the next call of read asks for. -/
def asked (c : RecvMsg) : Nat :=
  match c.data with
  | none => c.len.n
  | some d => d.n

/-- The next call of read, before RecvMsg has returned. -/
def read (c : RecvMsg) (arrived : Bytes) (res : Outcome) : RecvMsg × Bytes :=
  match c.data with
  | none =>
      let (len, arrived) := c.len.turn arrived res
      ({ len, data := if len.failed = true ∨ 0 < len.n then none else some { n := ntohl len.buf } }, arrived)
  | some d =>
      let (d, arrived) := d.turn arrived res
      ({ c with data := some d }, arrived)

def consumed (c : RecvMsg) : Bytes := c.len.buf ++ c.data.elim [] ReadAll.buf

end RecvMsg

/-- No more than was asked for; errors, timeouts and the end of the stream come at any time. -/
def Outcome.atMost (asked : Nat) : Outcome → Prop
  | .count n => n ≤ asked
  | .wouldBlock | .failed => True

/-- Some bytes, and no more than was asked for. -/
def Outcome.some (asked : Nat) : Outcome → Prop
  | .count n => 0 < n ∧ n ≤ asked
  | .wouldBlock | .failed => False

instance (asked : Nat) (res : Outcome) : Decidable (res.atMost asked) :=
  match res with
  | .count n => Nat.decLe n asked
  | .wouldBlock | .failed => isTrue trivial

instance (asked : Nat) (res : Outcome) : Decidable (res.some asked) :=
  match res with
  | .count n => @instDecidableAnd _ _ (Nat.decLt 0 n) (Nat.decLe n asked)
  | .wouldBlock | .failed => isFalse id

theorem Outcome.some.atMost {asked : Nat} {res : Outcome} (h : res.some asked) : res.atMost asked := by
  cases res with
  | count n => exact h.2
  | wouldBlock | failed => trivial

theorem WriteAll.turn_bytes (c : WriteAll) (res : Outcome) : (c.turn res).1 ++ (c.turn res).2.p = c.p := by
  cases res with
  | count w => by_cases hw : 0 < w <;> simp [turn, hw]
  | wouldBlock | failed => rfl

theorem WriteAll.turn_failed {c : WriteAll} {res : Outcome} (h : (c.turn res).2.failed = true) (hc : c.failed = false) :
    (c.turn res).2.p = c.p := by
  cases res with
  | count w =>
      by_cases hw : 0 < w
      · simp [turn, hw, hc] at h
      · simp [turn, hw]
  | wouldBlock | failed => rfl

theorem ReadAll.turn_bytes (c : ReadAll) (arrived : Bytes) (res : Outcome) :
    (c.turn arrived res).1.buf ++ (c.turn arrived res).2 = c.buf ++ arrived := by
  cases res with
  | count r => by_cases hr : 0 < r <;> simp [turn, hr]
  | wouldBlock | failed => rfl

theorem ReadAll.turn_length {c : ReadAll} {arrived : Bytes} {res : Outcome}
    (hres : res.atMost (min c.n arrived.length)) :
    (c.turn arrived res).1.buf.length + (c.turn arrived res).1.n = c.buf.length + c.n := by
  cases res with
  | count r =>
      have hle : r ≤ min c.n arrived.length := hres
      by_cases hr : 0 < r
      · simp only [turn, hr, if_true, List.length_append, List.length_take]
        omega
      · simp only [turn, hr, if_false]
  | wouldBlock | failed => rfl

theorem WriteAll.turn_some {c : WriteAll} {res : Outcome} (h : res.some c.p.length) :
    (c.turn res).2.failed = c.failed ∧ (c.turn res).2.p.length < c.p.length := by
  cases res with
  | count w =>
      obtain ⟨hpos, hle⟩ := h
      simp only [turn, hpos, if_true, true_and, List.length_drop]
      omega
  | wouldBlock | failed => cases h

theorem ReadAll.turn_some {c : ReadAll} {arrived : Bytes} {res : Outcome} (h : res.some (min c.n arrived.length)) :
    (c.turn arrived res).1.failed = c.failed ∧ (c.turn arrived res).2.length < arrived.length := by
  cases res with
  | count r =>
      obtain ⟨hpos, hle⟩ := h
      simp only [turn, hpos, if_true, true_and, List.length_drop]
      omega
  | wouldBlock | failed => cases h

namespace SendMsg

variable {c : SendMsg} {data : Bytes} {res : Outcome}

theorem left_sendMsg (hdata : data.length < 2 ^ 32) : (sendMsg data).left = lengthCode.frame data := by
  rw [left, sendMsg, Nat.mod_eq_of_lt hdata]
  rfl

theorem write_bytes (c : SendMsg) (res : Outcome) : (c.write res).1 ++ (c.write res).2.left = c.left := by
  rw [write, left]
  split
  next hlen =>
    have hdata := WriteAll.turn_bytes c.data res
    simp only [left, hlen, List.nil_append, hdata]
  next =>
    have hlen := WriteAll.turn_bytes c.len res
    rw [left, ← List.append_assoc, hlen]

theorem result_eq_none (h : c.result = none) : c.len.failed = false ∧ c.data.failed = false ∧ c.left ≠ [] := by
  rw [result] at h
  split at h
  next => cases h
  next hfailed =>
    split at h
    next => cases h
    next hleft =>
      simp only [Bool.or_eq_true, not_or, Bool.not_eq_true] at hfailed
      refine ⟨hfailed.1, hfailed.2, fun hnil => hleft ?_⟩
      exact List.append_eq_nil_iff.mp hnil

theorem result_eq_false : c.result = some false ↔ c.len.failed = true ∨ c.data.failed = true := by
  rw [result, ← Bool.or_eq_true]
  split
  next hfailed => exact iff_of_true rfl hfailed
  next hfailed =>
    refine iff_of_false ?_ hfailed
    split <;> simp

theorem length_asked_pos (h : c.result = none) : 0 < c.asked.length := by
  obtain ⟨-, -, hleft⟩ := result_eq_none h
  rw [asked]
  split
  next hlen =>
    rw [left, hlen, List.nil_append] at hleft
    exact List.length_pos_iff.mpr hleft
  next hlen => exact List.length_pos_iff.mpr hlen

/-- A call of write that takes something brings SendMsg nearer to its end. -/
theorem write_some (hc : c.result = none) (hres : res.some c.asked.length) :
    (c.write res).2.result ≠ some false ∧ (c.write res).2.left.length < c.left.length := by
  obtain ⟨hlen, hdata, -⟩ := result_eq_none hc
  rw [asked] at hres
  rw [write, Ne, result_eq_false, left, left, List.length_append, List.length_append]
  split
  next hnil =>
    rw [if_pos hnil] at hres
    obtain ⟨hfailed, hless⟩ := WriteAll.turn_some hres
    simp only [hlen, hfailed, hdata, Bool.false_eq_true, or_self, not_false_eq_true, true_and]
    omega
  next hnil =>
    rw [if_neg hnil] at hres
    obtain ⟨hfailed, hless⟩ := WriteAll.turn_some hres
    simp only [hlen, hfailed, hdata, Bool.false_eq_true, or_self, not_false_eq_true, true_and]
    omega

/-- A call that returns true has written everything. -/
theorem left_of_true (h : c.result = some true) : c.left = [] := by
  rw [result] at h
  split at h
  next => cases h
  next =>
    split at h
    next hleft => exact List.append_eq_nil_iff.mpr hleft
    next => cases h

/-- A call that returns false has not written everything. -/
theorem left_write_of_false (hc : c.result = none) (h : (c.write res).2.result = some false) :
    (c.write res).2.left ≠ [] := by
  obtain ⟨hlen, hdata, hleft⟩ := result_eq_none hc
  rw [write] at h ⊢
  split
  next hnil =>
    rw [if_pos hnil] at h
    have hfailed : (c.data.turn res).2.failed = true := by
      simp only [result, hlen, Bool.false_or] at h
      split at h
      next hf => exact hf
      next => split at h <;> cases h
    rw [left, WriteAll.turn_failed hfailed hdata]
    exact hleft
  next hnil =>
    rw [if_neg hnil] at h
    have hfailed : (c.len.turn res).2.failed = true := by
      simp only [result, hdata, Bool.or_false] at h
      split at h
      next hf => exact hf
      next => split at h <;> cases h
    rw [left, WriteAll.turn_failed hfailed hlen]
    exact hleft

end SendMsg

namespace RecvMsg

/-- How far the call has come. -/
structure Sound (c : RecvMsg) : Prop where
  len : c.len.buf.length + c.len.n = 4
  wants : c.data = none → c.len.failed = true ∨ 0 < c.len.n
  data : ∀ d, c.data = some d → c.len.failed = false ∧ c.len.n = 0 ∧ d.buf.length + d.n = ntohl c.len.buf

variable {c : RecvMsg} {arrived rest m : Bytes} {res : Outcome}

theorem sound_start : Sound {} where
  len := rfl
  wants := fun _ => .inr (by decide)
  data := nofun

theorem read_bytes (c : RecvMsg) (arrived : Bytes) (res : Outcome) :
    (c.read arrived res).1.consumed ++ (c.read arrived res).2 = c.consumed ++ arrived := by
  cases hd : c.data with
  | none =>
      have hbytes := ReadAll.turn_bytes c.len arrived res
      simp only [read, hd, consumed, Option.elim_none, List.append_nil]
      split <;> simp only [Option.elim_none, Option.elim_some, List.append_nil, hbytes]
  | some d =>
      have hbytes := ReadAll.turn_bytes d arrived res
      simp only [read, hd, consumed, Option.elim_some, List.append_assoc, hbytes]

theorem Sound.read (h : c.Sound) (hres : res.atMost (min c.asked arrived.length)) :
    (c.read arrived res).1.Sound := by
  cases hd : c.data with
  | none =>
      rw [asked, hd] at hres
      have hlen := ReadAll.turn_length hres
      rw [h.len] at hlen
      by_cases hmore : (c.len.turn arrived res).1.failed = true ∨ 0 < (c.len.turn arrived res).1.n
      · simp only [RecvMsg.read, hd, if_pos hmore]
        exact ⟨hlen, fun _ => hmore, nofun⟩
      · simp only [RecvMsg.read, hd, if_neg hmore]
        obtain ⟨hfailed, hzero⟩ := not_or.mp hmore
        refine ⟨hlen, nofun, ?_⟩
        rintro d ⟨⟩
        exact ⟨Bool.not_eq_true _ ▸ hfailed, Nat.le_zero.mp (Nat.not_lt.mp hzero), Nat.zero_add _⟩
  | some d =>
      rw [asked, hd] at hres
      have hlen := ReadAll.turn_length hres
      obtain ⟨hfailed, hzero, hsize⟩ := h.data d hd
      simp only [RecvMsg.read, hd]
      refine ⟨h.len, nofun, ?_⟩
      rintro d ⟨⟩
      exact ⟨hfailed, hzero, hlen.trans hsize⟩

theorem Sound.asked_pos (h : c.Sound) (hc : c.result = none) : 0 < c.asked := by
  rw [result] at hc
  rw [asked]
  split at hc
  next => cases hc
  next hfailed =>
    cases hd : c.data with
    | none => exact (h.wants hd).resolve_left hfailed
    | some d =>
        simp only [hd] at hc ⊢
        split at hc
        next => cases hc
        next =>
          split at hc
          next => cases hc
          next hmore => exact Nat.pos_of_ne_zero hmore

/-- A call of read that gives something takes it off what has arrived. -/
theorem read_some (hc : c.result ≠ some none) (hres : res.some (min c.asked arrived.length)) :
    (c.read arrived res).1.result ≠ some none ∧ (c.read arrived res).2.length < arrived.length := by
  have hlen : c.len.failed = false := by
    rw [result] at hc
    split at hc
    next => exact absurd rfl hc
    next hfailed => exact Bool.not_eq_true _ ▸ hfailed
  cases hd : c.data with
  | none =>
      rw [asked, hd] at hres
      obtain ⟨hfailed, hless⟩ := ReadAll.turn_some hres
      rw [hlen] at hfailed
      simp only [read, hd, hfailed, Bool.false_eq_true, false_or]
      refine ⟨?_, hless⟩
      rw [result]
      simp only [hfailed, Bool.false_eq_true, if_false]
      by_cases hmore : 0 < (c.len.turn arrived res).1.n
      · rw [if_pos hmore]
        exact nofun
      · rw [if_neg hmore]
        simp only [Bool.false_eq_true, if_false]
        split <;> exact nofun
  | some d =>
      rw [asked, hd] at hres
      obtain ⟨hfailed, hless⟩ := ReadAll.turn_some hres
      have hgood : d.failed = false := by
        simp only [result, hlen, hd, Bool.false_eq_true, if_false] at hc
        split at hc
        next => exact absurd rfl hc
        next hfailed => exact Bool.not_eq_true _ ▸ hfailed
      rw [hgood] at hfailed
      simp only [read, hd]
      refine ⟨?_, hless⟩
      simp only [result, hlen, hfailed, Bool.false_eq_true, if_false]
      split <;> exact nofun

theorem consumed_of_data {d : ReadAll} (hd : c.data = some d) : c.consumed = c.len.buf ++ d.buf := by
  rw [consumed, hd, Option.elim_some]

/-- What a call returns is the first message of the stream, and nothing behind it has been read. -/
theorem Sound.readFrame (h : c.Sound) (hc : c.result = some (some m)) (rest : Bytes) :
    lengthCode.readFrame (c.consumed ++ rest) = some (m, rest) := by
  rw [result] at hc
  split at hc
  next => cases hc
  next =>
    cases hd : c.data with
    | none => rw [hd] at hc; cases hc
    | some d =>
        obtain ⟨-, hzero, hsize⟩ := h.data d hd
        simp only [hd] at hc
        split at hc
        next => cases hc
        next =>
          split at hc
          next hdone =>
            cases hc
            have hlen : c.len.buf.length = 4 := by
              have h4 := h.len
              omega
            have htake : (c.len.buf ++ (d.buf ++ rest)).take 4 = c.len.buf := List.take_left' hlen
            have hdrop : (c.len.buf ++ (d.buf ++ rest)).drop 4 = d.buf ++ rest := List.drop_left' hlen
            have hbuf : d.buf.length = ntohl c.len.buf := by omega
            rw [consumed_of_data hd, List.append_assoc, readFrame_lengthCode, htake, ← hbuf, if_neg, if_neg,
              ← List.drop_drop, hdrop, List.take_left, List.drop_left]
            · simp only [List.length_append, hlen]
              omega
            · simp only [List.length_append, hlen]
              omega
          next => cases hc

/-- A call that waits for more has read no whole message. -/
theorem Sound.readFrame_none (h : c.Sound) (hc : c.result = none) : lengthCode.readFrame c.consumed = none := by
  rw [result] at hc
  split at hc
  next => cases hc
  next hfailed =>
    have h4 := h.len
    cases hd : c.data with
    | none =>
        have hwants := (h.wants hd).resolve_left hfailed
        rw [readFrame_lengthCode, consumed, hd, Option.elim_none, List.append_nil, if_pos]
        omega
    | some d =>
        obtain ⟨-, hzero, hsize⟩ := h.data d hd
        simp only [hd] at hc
        split at hc
        next => cases hc
        next =>
          split at hc
          next => cases hc
          next hmore =>
            have hlen : c.len.buf.length = 4 := by omega
            rw [consumed_of_data hd, readFrame_lengthCode, List.take_left' hlen, if_neg, if_pos]
            · rw [List.length_append]
              omega
            · rw [List.length_append]
              omega

/-- A call of RecvMsg that has read the whole of a message returns it. -/
theorem Sound.result_of_frame (h : c.Sound) (hfine : c.result ≠ some none) (hm : m.length < 2 ^ 32)
    (hall : c.consumed = lengthCode.frame m) : c.result = some (some m) := by
  have hframe := LengthCode.readFrame_frame (c := lengthCode) hm []
  rw [List.append_nil, ← hall] at hframe
  cases hc : c.result with
  | none =>
      rw [h.readFrame_none hc] at hframe
      cases hframe
  | some got =>
      cases got with
      | none => exact absurd hc hfine
      | some got =>
          have hread := h.readFrame hc []
          rw [List.append_nil, hframe] at hread
          rw [(Prod.mk.inj (Option.some.inj hread)).1]

end RecvMsg

end MiniStorage.Net
