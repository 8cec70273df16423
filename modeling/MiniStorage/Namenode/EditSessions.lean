import MiniStorage.Namenode.EditLog
import MiniStorage.Runs

namespace MiniStorage.Namenode

open Engine Framing Runs

/-- What one EditLog object is asked to append, and the Append it ends in with how many of its bytes get to the file. -/
structure EditSession where
  ops : List NameNodeRequest := []
  torn : Option (NameNodeRequest × Nat) := none
deriving DecidableEq, Repr

namespace EditSession

open EditLog

variable (w : Wire NameNodeRequest)

/-- The constructor opens the file to append to what is there. -/
def run (session : EditSession) (log : Bytes) : Bytes :=
  let file := session.ops.foldl (fun file op => (append w file op).2) { bytes := log }
  match session.torn with
  | none => file.bytes
  | some (op, n) => (append w { file with room := some n } op).2.bytes

/-- The requests whose Append got all of its bytes to the file. -/
def completed (session : EditSession) : List NameNodeRequest :=
  session.ops ++
    match session.torn with
    | none => []
    | some (op, n) => if (record w op).length ≤ n then [op] else []

/-- What is there of an Append that was cut. -/
def tail (session : EditSession) : Bytes :=
  match session.torn with
  | none => []
  | some (op, n) => if (record w op).length ≤ n then [] else (record w op).take n

/-- Protobuf gives every request of the session back. -/
def Loggable (session : EditSession) : Prop :=
  (∀ op ∈ session.ops, EditLog.Loggable w op) ∧ ∀ op n, session.torn = some (op, n) → EditLog.Loggable w op

end EditSession

/-- The file, and the requests completely appended to it so far. -/
structure EditFile where
  bytes : Bytes := []
  completed : List NameNodeRequest := []
deriving DecidableEq, Repr

namespace EditFile

open EditLog

variable (w : Wire NameNodeRequest)

def step (s : EditFile) (session : EditSession) : Option EditFile :=
  some ⟨session.run w s.bytes, s.completed ++ session.completed w⟩

/-- The log consists of whole records. -/
def Whole (log : Bytes) : Prop := ∃ ops : List NameNodeRequest, (∀ op ∈ ops, Loggable w op) ∧ log = ops.flatMap (record w)

/-- The session writes nothing, or goes on behind a whole record. -/
def Resumes (s : EditFile) (session : EditSession) : Prop :=
  session.Loggable w ∧ (session.completed w = [] ∧ session.tail w = [] ∨ Whole w s.bytes)

/-- All that was completely appended is there, and behind it at most the beginning of one more record. -/
structure Intact (s : EditFile) : Prop where
  loggable : ∀ op ∈ s.completed, Loggable w op
  torn : ∃ tail, s.bytes = s.completed.flatMap (record w) ++ tail ∧ lengthCode.readFrame tail = none

variable {w} {s t : EditFile} {session : EditSession} {sessions : List EditSession}

theorem append_ops (ops : List NameNodeRequest) {log : OFStream} (hgood : log.good = true) (hroom : log.room = none) :
    (ops.foldl (fun file op => (append w file op).2) log).bytes = log.bytes ++ ops.flatMap (record w) ∧
      (ops.foldl (fun file op => (append w file op).2) log).good = true ∧
      (ops.foldl (fun file op => (append w file op).2) log).room = none := by
  induction ops generalizing log with
  | nil => exact ⟨(List.append_nil _).symm, hgood, hroom⟩
  | cons op ops ih =>
      obtain ⟨hbytes, hgood', hroom'⟩ := append_bytes (w := w) op hgood hroom
      obtain ⟨hrest, hgood'', hroom''⟩ := ih hgood' hroom'
      refine ⟨?_, hgood'', hroom''⟩
      rw [List.foldl_cons, hrest, hbytes, List.flatMap_cons, List.append_assoc]

/-- An Append that is cut leaves the bytes of the record that still got through. -/
theorem append_cut {op : NameNodeRequest} {log : OFStream} {n : Nat} (hgood : log.good = true)
    (hroom : log.room = some n) : (append w log op).2.bytes = log.bytes ++ (record w op).take n := by
  rw [append, record]
  cases hser : w.serialize op with
  | none => rw [List.take_nil, List.append_nil]
  | some data =>
      have hlen := length_htonl data.length
      by_cases hhead : 4 ≤ n
      · have hhead' : (htonl data.length).length ≤ n := hlen ▸ hhead
        by_cases hdata : data.length ≤ n - 4
        · have hall : (htonl data.length ++ data).length ≤ n := by
            rw [List.length_append]
            omega
          simp [OFStream.write, hgood, hroom, hlen, hhead, hdata, List.take_of_length_le hall]
        · simp [OFStream.write, hgood, hroom, hlen, hhead, hdata, List.take_append, List.take_of_length_le hhead']
      · have hzero : n - 4 = 0 := by omega
        simp [OFStream.write, hgood, hroom, hlen, hhead, List.take_append, hzero]

theorem run_bytes (log : Bytes) :
    session.run w log = log ++ (session.completed w).flatMap (record w) ++ session.tail w := by
  obtain ⟨hbytes, hgood, -⟩ := @append_ops w session.ops { bytes := log } rfl rfl
  rw [EditSession.run, EditSession.completed, EditSession.tail]
  generalize session.ops.foldl (fun file op => (append w file op).2) { bytes := log } = file at hbytes hgood
  cases session.torn with
  | none => rw [List.append_nil, List.append_nil]; exact hbytes
  | some cut =>
      obtain ⟨op, n⟩ := cut
      have hcut : (append w { file with room := some n } op).2.bytes = file.bytes ++ (record w op).take n :=
        append_cut hgood rfl
      simp only [hcut]
      rw [hbytes]
      by_cases hn : (record w op).length ≤ n
      · rw [if_pos hn, if_pos hn, List.take_of_length_le hn, List.flatMap_append, List.flatMap_singleton,
          List.append_nil, List.append_assoc]
      · rw [if_neg hn, if_neg hn, List.append_nil]

theorem readFrame_tail (h : session.Loggable w) : lengthCode.readFrame (session.tail w) = none := by
  rw [EditSession.tail]
  cases htorn : session.torn with
  | none => rfl
  | some cut =>
      obtain ⟨op, n⟩ := cut
      by_cases hn : (record w op).length ≤ n
      · simp only [if_pos hn]
        rfl
      · simp only [if_neg hn]
        obtain ⟨hrecord, hlen, -⟩ := (h.2 op n htorn).wireBytes
        rw [hrecord] at hn ⊢
        refine LengthCode.readFrame_torn hlen (List.take_prefix _ _) ?_
        rw [List.length_take]
        omega

theorem loggable_completed (h : session.Loggable w) : ∀ op ∈ session.completed w, Loggable w op := by
  intro op hop
  rcases List.mem_append.mp hop with hop | hop
  · exact h.1 op hop
  · cases htorn : session.torn with
    | none => simp [htorn] at hop
    | some cut =>
        simp only [htorn, List.mem_ite_nil_right, List.mem_singleton] at hop
        rw [hop.2]
        exact h.2 cut.1 cut.2 htorn

theorem Whole.tail_eq_nil {log tail : Bytes} {ops : List NameNodeRequest} (h : Whole w log)
    (hops : ∀ op ∈ ops, Loggable w op) (hlog : log = ops.flatMap (record w) ++ tail)
    (htail : lengthCode.readFrame tail = none) : tail = [] := by
  obtain ⟨ops', hops', heq⟩ := h
  rw [hlog, flatMap_record hops, flatMap_record hops'] at heq
  exact LengthCode.eq_nil_of_torn (length_wireBytes_lt hops) (length_wireBytes_lt hops') htail heq

theorem Intact.step (h : Intact w s) (hres : Resumes w s session) (hs : step w s session = some t) : Intact w t := by
  obtain ⟨tail, hbytes, htail⟩ := h.torn
  cases hs
  have hloggable : ∀ op ∈ s.completed ++ session.completed w, Loggable w op := fun op hop =>
    (List.mem_append.mp hop).elim (h.loggable op) (loggable_completed hres.1 op)
  rcases hres.2 with ⟨hnone, hcut⟩ | hwhole
  · refine ⟨hloggable, tail, ?_, htail⟩
    simp only [run_bytes, hnone, hcut, List.flatMap_nil, List.append_nil, hbytes]
  · have hnil := hwhole.tail_eq_nil h.loggable hbytes htail
    rw [hnil, List.append_nil] at hbytes
    refine ⟨hloggable, session.tail w, ?_, readFrame_tail hres.1⟩
    simp only [run_bytes, hbytes, List.flatMap_append]

/-- Replay hands over what was completely appended as long as no session goes on behind a cut record. -/
theorem replay_sessions (h : Run (step w) (Resumes w) {} sessions s) : replay w s.bytes = s.completed := by
  have hempty : Intact w {} := ⟨fun op hop => (by cases hop), [], rfl, rfl⟩
  have hi : Intact w s := h.invariant (fun _ _ _ hi ha hs => Intact.step hi ha hs) hempty
  obtain ⟨tail, hbytes, htail⟩ := hi.torn
  rw [hbytes, replay_torn hi.loggable htail]

def createB : NameNodeRequest := { op := .createFile, createFile := some ⟨text "/b"⟩ }

def createBWire : Wire NameNodeRequest := .table [(createB, [0x52, 0x04, 0x0a, 0x02, 0x2f, 0x62])]

theorem createB_loggable : Loggable createBWire createB := ⟨_, rfl, by decide, rfl⟩

theorem createB_only_loggable : ∀ op ∈ [createB], Loggable createBWire op := by
  intro op hop
  rw [List.mem_singleton.mp hop]
  exact createB_loggable

theorem loggable_session : EditSession.Loggable createBWire ⟨[createB], none⟩ :=
  ⟨createB_only_loggable, fun op n hcut => by cases hcut⟩

theorem loggable_cut (ops : List NameNodeRequest) (hops : ∀ op ∈ ops, Loggable createBWire op) (n : Nat) :
    EditSession.Loggable createBWire ⟨ops, some (createB, n)⟩ := by
  refine ⟨hops, ?_⟩
  intro op k hcut
  obtain ⟨rfl, -⟩ := Prod.mk.inj (Option.some.inj hcut)
  exact createB_loggable

/-- The last of two sessions ends in a cut Append. -/
theorem replay_sessions_cut : ∃ s,
    Run (step createBWire) (Resumes createBWire) {} [⟨[createB], none⟩, ⟨[createB], some (createB, 7)⟩] s ∧
      s.completed = [createB, createB] ∧ replay createBWire s.bytes = s.completed := by
  have hone : record createBWire createB = [0, 0, 0, 6, 0x52, 0x04, 0x0a, 0x02, 0x2f, 0x62] := by decide
  have hfirst : Run (step createBWire) (Resumes createBWire) {} [⟨[createB], none⟩]
      ⟨[0, 0, 0, 6, 0x52, 0x04, 0x0a, 0x02, 0x2f, 0x62], [createB]⟩ :=
    .single ⟨loggable_session, .inr ⟨[], fun op hop => (by cases hop), rfl⟩⟩ (by decide)
  have hsecond : Run (step createBWire) (Resumes createBWire) ⟨[0, 0, 0, 6, 0x52, 0x04, 0x0a, 0x02, 0x2f, 0x62], [createB]⟩
      [⟨[createB], some (createB, 7)⟩]
      ⟨[0, 0, 0, 6, 0x52, 0x04, 0x0a, 0x02, 0x2f, 0x62, 0, 0, 0, 6, 0x52, 0x04, 0x0a, 0x02, 0x2f, 0x62,
        0, 0, 0, 6, 0x52, 0x04, 0x0a], [createB, createB]⟩ := by
    refine .single ⟨loggable_cut _ createB_only_loggable 7, .inr ⟨[createB], createB_only_loggable, ?_⟩⟩ (by decide)
    rw [List.flatMap_singleton, hone]
  have hrun := hfirst.append hsecond
  exact ⟨_, hrun, rfl, replay_sessions hrun⟩

/-- Behind five bytes of a cut record nothing that a later session appends is read any more. -/
theorem not_replay_sessions :
    ¬ ∀ (w : Wire NameNodeRequest) (sessions : List EditSession) (s : EditFile),
      Run (step w) (fun _ session => session.Loggable w) {} sessions s → replay w s.bytes = s.completed := by
  intro hclaim
  have hcut : Run (step createBWire) (fun _ session => session.Loggable createBWire) {} [⟨[], some (createB, 5)⟩]
      ⟨[0, 0, 0, 6, 0x52], []⟩ := .single (loggable_cut [] (fun op hop => by cases hop) 5) (by decide)
  have hwhole : Run (step createBWire) (fun _ session => session.Loggable createBWire) ⟨[0, 0, 0, 6, 0x52], []⟩
      [⟨[createB], none⟩]
      ⟨[0, 0, 0, 6, 0x52, 0, 0, 0, 6, 0x52, 0x04, 0x0a, 0x02, 0x2f, 0x62], [createB]⟩ :=
    .single loggable_session (by decide)
  exact absurd (hclaim createBWire _ _ (hcut.append hwhole)) (by decide)

end EditFile

end MiniStorage.Namenode
