import MiniStorage.Engine.Stream
import MiniStorage.Layout
import MiniStorage.Raft.Node

namespace MiniStorage.Raft

open Engine LittleEndian

/-- One turn of the loop in PersistState. -/
def LogEntry.writeTo (file : OFStream) (e : LogEntry) : OFStream :=
  let file := file.write (encode 8 e.term)
  let file := file.write (encode 8 e.index)
  let file := file.write (encode 8 e.command.length)
  if e.command = [] then file else file.write e.command

/-- PersistState on the file it has opened and emptied. -/
def StateFile.writeTo (s : StateFile) (file : OFStream) : OFStream :=
  let file := file.write (encode 8 s.term)
  let file := file.write (encode 8 s.votedFor.length)
  let file := if s.votedFor = [] then file else file.write s.votedFor
  let file := file.write (encode 8 s.entries.length)
  s.entries.foldl LogEntry.writeTo file

def StateFile.bytes (s : StateFile) : Bytes := (s.writeTo {}).bytes

/-- std::string::resize. -/
def resize (s : Bytes) (n : Nat) : Bytes := s.take n ++ zeros (n - s.length)

/-- What a read that may be short leaves in its buffer. -/
def fill (buffer got : Bytes) : Bytes := got ++ buffer.drop got.length

/-- RestoreState on the vote. -/
def readVote (votedFor : Bytes) (file : IFStream) : Bytes × IFStream :=
  let length := file.read 8
  let vfLen := decode length.1
  if length.1.length = 8 ∧ 0 < vfLen then
    let vote := length.2.read vfLen
    (fill (resize votedFor vfLen) vote.1, vote.2)
  else (votedFor, length.2)

/-- One turn of the loop in RestoreState. Nothing looks at gcount here, and the integers are 0 before they are read. -/
def readEntry (file : IFStream) : LogEntry × IFStream :=
  let term := file.read 8
  let index := term.2.read 8
  let length := index.2.read 8
  let cmdLen := decode length.1
  let command := if 0 < cmdLen then length.2.read cmdLen else ([], length.2)
  (⟨decode term.1, decode index.1, fill (zeros cmdLen) command.1⟩, command.2)

def readEntries : Nat → IFStream → List LogEntry
  | 0, _ => []
  | k + 1, file => (readEntry file).1 :: readEntries k (readEntry file).2

/-- RestoreState over whatever bytes the file holds. -/
def RaftNode.readState (n : RaftNode) (bytes : Bytes) : RaftNode :=
  let term := IFStream.read { bytes } 8
  let n := { n with currentTerm := decode (fill (encode 8 n.currentTerm) term.1) }
  if term.1.length ≠ 8 then n
  else
    let vote := readVote n.votedFor term.2
    let n := { n with votedFor := vote.1 }
    let count := vote.2.read 8
    if count.1.length ≠ 8 then n
    else
      let log := {} :: readEntries (decode count.1) count.2
      { n with log := log, commitIndex := (back log).index, lastApplied := (back log).index }

structure LogEntry.Fits (e : LogEntry) : Prop where
  term : e.term < 2 ^ 64
  index : e.index < 2 ^ 64
  command : e.command.length < 2 ^ 64

/-- The integers of a node are of 64 bits. -/
structure StateFile.Fits (s : StateFile) : Prop where
  term : s.term < 2 ^ 64
  votedFor : s.votedFor.length < 2 ^ 64
  count : s.entries.length < 2 ^ 64
  entries : ∀ e ∈ s.entries, e.Fits

/-- The term, the vote and the entries of the node are those of the state. -/
structure RaftNode.Recovered (n : RaftNode) (s : StateFile) : Prop where
  term : n.currentTerm = s.term
  votedFor : n.votedFor = s.votedFor
  log : n.log = {} :: s.entries

instance (n : RaftNode) (s : StateFile) : Decidable (n.Recovered s) :=
  decidable_of_iff (n.currentTerm = s.term ∧ n.votedFor = s.votedFor ∧ n.log = {} :: s.entries)
    ⟨fun h => ⟨h.1, h.2.1, h.2.2⟩, fun h => ⟨h.term, h.votedFor, h.log⟩⟩

/-- Where a crash finds PersistState: before it opens the file, or with so many bytes in it. -/
inductive CrashPoint
  | closed
  | written (count : Nat)
deriving DecidableEq, Repr

def CrashPoint.file (s0 s1 : StateFile) : CrashPoint → Bytes
  | .closed => s0.bytes
  | .written count => (s1.writeTo { room := some count }).bytes

/-- The part of a file that RestoreState has something of: the term, what is there of a vote of known length, and
the rest only if the number of entries is whole. -/
def usable (bytes : Bytes) : Bytes :=
  if bytes.length < 16 then bytes.take 8
  else
    let vfLen := decode ((bytes.drop 8).take 8)
    if bytes.length < 24 + vfLen then bytes.take (16 + vfLen) else bytes

def entryLayout : Layout LogEntry :=
  ((Layout.num 8).both ((Layout.num 8).both (Layout.sized 8))).map
    (fun x => ⟨x.1, x.2.1, x.2.2⟩) (fun e => (e.term, e.index, e.command)) fun _ => rfl

def stateLayout : Layout StateFile :=
  ((Layout.num 8).both ((Layout.sized 8).both (Layout.counted 8 entryLayout))).map
    (fun x => ⟨x.1, x.2.1, x.2.2⟩) (fun s => (s.term, s.votedFor, s.entries)) fun _ => rfl

theorem LogEntry.Fits.layout {e : LogEntry} (h : e.Fits) : entryLayout.Fits e :=
  ⟨⟨h.term, ⟨h.index, ⟨h.command, rfl⟩, rfl⟩, rfl⟩, rfl⟩

theorem StateFile.Fits.layout {s : StateFile} (h : s.Fits) : stateLayout.Fits s :=
  ⟨⟨h.term, ⟨⟨h.votedFor, rfl⟩, ⟨h.count, rfl, fun e he => (h.entries e he).layout⟩, rfl⟩, rfl⟩, rfl⟩

theorem LogEntry.writeTo_eq (e : LogEntry) (file : OFStream) : e.writeTo file = file.write (entryLayout.write e) := by
  have hsame : e.writeTo file = (((file.write (encode 8 e.term)).write (encode 8 e.index)).write
      (encode 8 e.command.length)).write e.command := by
    by_cases hc : e.command = []
    · simp only [writeTo, hc, if_true, OFStream.write_nil]
    · simp only [writeTo, hc, if_false]
  rw [hsame, OFStream.write_append, OFStream.write_append, OFStream.write_append]
  simp only [entryLayout, Layout.map, Layout.both, Layout.keyed, Layout.num, Layout.sized, Layout.raw]

theorem foldl_writeTo (es : List LogEntry) (file : OFStream) :
    es.foldl LogEntry.writeTo file = file.write (es.flatMap entryLayout.write) := by
  induction es generalizing file with
  | nil => rw [List.foldl_nil, List.flatMap_nil, OFStream.write_nil]
  | cons e es ih => rw [List.foldl_cons, ih, LogEntry.writeTo_eq, OFStream.write_append, List.flatMap_cons]

theorem StateFile.writeTo_eq (s : StateFile) (file : OFStream) : s.writeTo file = file.write (stateLayout.write s) := by
  have hsame : s.writeTo file = ((((file.write (encode 8 s.term)).write (encode 8 s.votedFor.length)).write
      s.votedFor).write (encode 8 s.entries.length)).write (s.entries.flatMap entryLayout.write) := by
    by_cases hv : s.votedFor = []
    · simp only [writeTo, hv, if_true, foldl_writeTo, OFStream.write_nil]
    · simp only [writeTo, hv, if_false, foldl_writeTo]
  rw [hsame, OFStream.write_append, OFStream.write_append, OFStream.write_append, OFStream.write_append]
  simp only [stateLayout, Layout.map, Layout.both, Layout.keyed, Layout.num, Layout.sized, Layout.raw, Layout.counted,
    Layout.times, List.append_assoc]

theorem StateFile.bytes_eq (s : StateFile) : s.bytes = stateLayout.write s := by
  rw [bytes, writeTo_eq]
  rfl

theorem CrashPoint.file_written (s0 s1 : StateFile) (count : Nat) :
    CrashPoint.file s0 s1 (.written count) = s1.bytes.take count := by
  rw [file, StateFile.writeTo_eq, StateFile.bytes_eq, OFStream.write]
  dsimp only
  rcases Nat.lt_or_ge count (stateLayout.write s1).length with hlt | hle
  · simp [Nat.not_le.mpr hlt]
  · simp [hle, List.take_of_length_le hle]

theorem fill_zeros (got : Bytes) (n : Nat) : fill (zeros n) got = got ++ zeros (n - got.length) := by
  rw [fill, drop_zeros]

theorem fill_take (bytes : Bytes) (n : Nat) : fill (zeros n) (bytes.take n) = ((Layout.raw n).read bytes).1 := by
  rw [fill_zeros, List.length_take]
  have hn : n - min n bytes.length = n - bytes.length := by omega
  rw [hn]
  rfl

theorem resize_nil (n : Nat) : resize [] n = zeros n := by simp [resize]

theorem decode_fill_zero (got : Bytes) : decode (fill (encode 8 0) got) = decode got := by
  rw [encode_zero, ← zeros, fill_zeros, decode_append, decode_zeros, Nat.mul_zero, Nat.add_zero]

theorem readEntry_eq (file : IFStream) : (readEntry file).1 = (entryLayout.read file.unread).1 ∧
    (readEntry file).2.unread = (entryLayout.read file.unread).2 := by
  have hcommand (f : IFStream) (n : Nat) : (if 0 < n then f.read n else ([], f)).1 = f.unread.take n ∧
      (if 0 < n then f.read n else ([], f)).2.unread = f.unread.drop n := by
    split
    · exact ⟨f.read_fst n, f.unread_read n⟩
    · next hn =>
      obtain rfl := Nat.eq_zero_of_not_pos hn
      exact ⟨rfl, rfl⟩
  constructor
  · simp only [readEntry, (hcommand _ _).1, IFStream.read_fst, IFStream.unread_read, fill_take]
    rfl
  · simp only [readEntry, (hcommand _ _).2, IFStream.read_fst, IFStream.unread_read]
    rfl

theorem readEntries_eq (k : Nat) (file : IFStream) :
    readEntries k file = ((entryLayout.times k).read file.unread).1 := by
  induction k generalizing file with
  | zero => rfl
  | succ k ih =>
      obtain ⟨hentry, hrest⟩ := readEntry_eq file
      rw [readEntries, ih, hentry, hrest]
      rfl

theorem readVote_eq {file : IFStream} (h : 8 ≤ file.unread.length) :
    (readVote [] file).1 = ((Layout.sized 8).read file.unread).1 ∧
      (readVote [] file).2.unread = ((Layout.sized 8).read file.unread).2 := by
  have hfull : (file.read 8).1.length = 8 := by rw [IFStream.read_fst, List.length_take_of_le h]
  rw [readVote]
  dsimp only
  split
  · simp only [resize_nil, IFStream.read_fst, IFStream.unread_read, fill_take]
    exact ⟨rfl, rfl⟩
  · next hzero =>
    have hv : decode (file.unread.take 8) = 0 := by
      rw [← IFStream.read_fst]
      by_contra hne
      exact hzero ⟨hfull, Nat.pos_of_ne_zero hne⟩
    simp only [Layout.sized, Layout.keyed, Layout.num, Layout.raw, hv, IFStream.unread_read]
    simp [zeros]

theorem readVote_short {file : IFStream} (h : file.unread.length < 8) :
    (readVote [] file).1 = [] ∧ (readVote [] file).2.unread = [] := by
  have hshort : ¬ ((file.read 8).1.length = 8 ∧ 0 < decode (file.read 8).1) := by
    rintro ⟨hlen, -⟩
    rw [IFStream.read_fst, List.length_take] at hlen
    omega
  rw [readVote]
  dsimp only
  rw [if_neg hshort, IFStream.unread_read]
  exact ⟨rfl, List.drop_eq_nil_of_le h.le⟩

theorem read_state (bytes : Bytes) :
    (stateLayout.read bytes).1 = ⟨decode (bytes.take 8), ((Layout.sized 8).read (bytes.drop 8)).1,
      ((Layout.counted 8 entryLayout).read ((Layout.sized 8).read (bytes.drop 8)).2).1⟩ := rfl

theorem RaftNode.readState_eq (bytes : Bytes) (vote : Bytes × IFStream)
    (hvote : readVote [] (IFStream.read { bytes } 8).2 = vote) (h : 8 ≤ bytes.length) :
    (readState {} bytes).currentTerm = decode (bytes.take 8) ∧ (readState {} bytes).votedFor = vote.1 ∧
      (readState {} bytes).log = {} :: if vote.2.unread.length < 8 then []
        else ((Layout.counted 8 entryLayout).read vote.2.unread).1 := by
  have hterm : (IFStream.read { bytes } 8).1 = bytes.take 8 := IFStream.read_fst _ 8
  have hfull : (bytes.take 8).length = 8 := List.length_take_of_le h
  have hcount : (vote.2.read 8).1 = vote.2.unread.take 8 := IFStream.read_fst _ 8
  rw [readState]
  simp only [hterm, decode_fill_zero, hfull, ne_eq, not_true_eq_false, if_false, hvote, hcount]
  rcases Nat.lt_or_ge vote.2.unread.length 8 with hlt | hle
  · have hne : ¬ (vote.2.unread.take 8).length = 8 := by
      rw [List.length_take]
      omega
    simp only [hne, not_false_eq_true, if_true, hlt, and_self]
  · have heq : (vote.2.unread.take 8).length = 8 := List.length_take_of_le hle
    simp only [heq, not_true_eq_false, if_false, Nat.not_lt.mpr hle, readEntries_eq, IFStream.unread_read, true_and]
    rfl

theorem RaftNode.readState_recovered (bytes : Bytes) :
    (readState {} bytes).Recovered (stateLayout.read (usable bytes)).1 := by
  have hrest : (IFStream.read { bytes } 8).2.unread = bytes.drop 8 := IFStream.unread_read _ 8
  rw [usable]
  split
  · next hshort =>
    have hnil : (bytes.take 8).drop 8 = [] := by simp
    rw [read_state, hnil, List.take_take, min_self]
    rcases Nat.lt_or_ge bytes.length 8 with hlt | hle
    · have hterm : (IFStream.read { bytes } 8).1 = bytes := by
        rw [IFStream.read_fst]
        exact List.take_of_length_le hlt.le
      have hne : ¬ bytes.length = 8 := hlt.ne
      rw [readState]
      simp only [hterm, decode_fill_zero, ne_eq, hne, not_false_eq_true, if_true, List.take_of_length_le hlt.le]
      exact ⟨rfl, rfl, rfl⟩
    · obtain ⟨hvote, hleft⟩ := @readVote_short (IFStream.read { bytes } 8).2 (by
        rw [hrest, List.length_drop]
        omega)
      obtain ⟨hterm, hvoted, hlog⟩ := readState_eq bytes _ rfl hle
      rw [hvote] at hvoted
      rw [hleft] at hlog
      exact ⟨hterm, hvoted, hlog⟩
  · next hlong =>
    obtain ⟨hvote, hleft⟩ := @readVote_eq (IFStream.read { bytes } 8).2 (by
      rw [hrest, List.length_drop]
      omega)
    obtain ⟨hterm, hvoted, hlog⟩ := readState_eq bytes _ rfl (by omega)
    rw [hvote, hrest] at hvoted
    rw [hleft, hrest] at hlog
    dsimp only
    split
    · next hcut =>
      have hlen : ((Layout.sized 8).read (bytes.drop 8)).2.length < 8 := by
        rw [Layout.length_read_sized, List.length_drop]
        omega
      rw [if_pos hlen] at hlog
      have hsub : 16 + decode ((bytes.drop 8).take 8) - 8 = 8 + decode ((bytes.drop 8).take 8) := by omega
      have hmin : min 8 (16 + decode ((bytes.drop 8).take 8)) = 8 := by omega
      rw [read_state, List.take_take, List.drop_take, hsub, hmin, Layout.read_sized_take]
      exact ⟨hterm, hvoted, hlog⟩
    · next hwhole =>
      have hlen : ¬ ((Layout.sized 8).read (bytes.drop 8)).2.length < 8 := by
        rw [Layout.length_read_sized, List.length_drop]
        omega
      rw [if_neg hlen] at hlog
      exact ⟨hterm, hvoted, hlog⟩

theorem fill_full {buffer got : Bytes} (h : got.length = buffer.length) : fill buffer got = got := by
  rw [fill, h, List.drop_length, List.append_nil]

theorem length_resize (s : Bytes) (n : Nat) : (resize s n).length = n := by
  simp only [resize, zeros, List.length_append, List.length_take, List.length_replicate]
  omega

theorem readVote_intact {file : IFStream} {vote rest : Bytes} (votedFor : Bytes) (hlen : vote.length < 2 ^ 64)
    (h : file.unread = (Layout.sized 8).write vote ++ rest) :
    (readVote votedFor file).1 = (if vote = [] then votedFor else vote) ∧ (readVote votedFor file).2.unread = rest := by
  have hbytes : file.unread = encode 8 vote.length ++ (vote ++ rest) := by
    rw [h, ← List.append_assoc]
    rfl
  have hgot : (file.read 8).1 = encode 8 vote.length := by
    rw [IFStream.read_fst, hbytes, List.take_left' (length_encode 8 _)]
  have hleft : (file.read 8).2.unread = vote ++ rest := by
    rw [IFStream.unread_read, hbytes, List.drop_left' (length_encode 8 _)]
  have hdecode : decode (encode 8 vote.length) = vote.length := decode_encode_of_lt hlen
  rw [readVote]
  simp only [hgot, hdecode, length_encode, true_and, List.length_pos_iff]
  by_cases hnil : vote = []
  · subst hnil
    exact ⟨rfl, hleft⟩
  · simp only [ne_eq, hnil, not_false_eq_true, if_true, if_false, IFStream.read_fst, IFStream.unread_read, hleft,
      List.take_left, List.drop_left, fill_full (length_resize _ _).symm, and_self]

theorem RaftNode.readState_intact (n : RaftNode) {s : StateFile} (h : s.Fits) :
    n.readState s.bytes = { n with
      currentTerm := s.term
      votedFor := if s.votedFor = [] then n.votedFor else s.votedFor
      log := {} :: s.entries
      commitIndex := (back ({} :: s.entries)).index
      lastApplied := (back ({} :: s.entries)).index } := by
  have hbytes : s.bytes = encode 8 s.term ++ ((Layout.sized 8).write s.votedFor ++
      (encode 8 s.entries.length ++ s.entries.flatMap entryLayout.write)) := by
    rw [StateFile.bytes_eq]
    rfl
  have hterm : (IFStream.read { bytes := s.bytes } 8).1 = encode 8 s.term := by
    rw [IFStream.read_fst]
    exact (congrArg (List.take 8) hbytes).trans (List.take_left' (length_encode 8 s.term))
  have hrest : (IFStream.read { bytes := s.bytes } 8).2.unread = (Layout.sized 8).write s.votedFor ++
      (encode 8 s.entries.length ++ s.entries.flatMap entryLayout.write) := by
    rw [IFStream.unread_read]
    exact (congrArg (List.drop 8) hbytes).trans (List.drop_left' (length_encode 8 s.term))
  obtain ⟨hvote, hleft⟩ := readVote_intact n.votedFor h.votedFor hrest
  have hcount : ((readVote n.votedFor (IFStream.read { bytes := s.bytes } 8).2).2.read 8).1 =
      encode 8 s.entries.length := by
    rw [IFStream.read_fst, hleft, List.take_left' (length_encode 8 _)]
  have hentries : readEntries s.entries.length
      ((readVote n.votedFor (IFStream.read { bytes := s.bytes } 8).2).2.read 8).2 = s.entries := by
    have hread := (entryLayout.times s.entries.length).read_write ⟨rfl, fun e he => (h.entries e he).layout⟩ []
    rw [List.append_nil] at hread
    rw [readEntries_eq, IFStream.unread_read, hleft, List.drop_left' (length_encode 8 _)]
    exact congrArg Prod.fst hread
  have hfill : fill (encode 8 n.currentTerm) (encode 8 s.term) = encode 8 s.term :=
    fill_full (by rw [length_encode, length_encode])
  have hterm' : decode (encode 8 s.term) = s.term := decode_encode_of_lt h.term
  have hcount' : decode (encode 8 s.entries.length) = s.entries.length := decode_encode_of_lt h.count
  rw [readState]
  simp only [hterm, hfill, length_encode, ne_eq, not_true_eq_false, if_false, hvote, hcount,
    hterm', hcount', hentries]

theorem RaftNode.Recovered.readState {s : StateFile} (h : s.Fits) : (RaftNode.readState {} s.bytes).Recovered s := by
  rw [readState_intact {} h]
  refine ⟨rfl, ?_, rfl⟩
  dsimp only
  split
  · next hnil => exact hnil.symm
  · rfl

/-- A fresh node reads back the term, the vote and the log of the node that wrote the file. -/
theorem state_round_trip {n : RaftNode} {s : StateFile} (hlog : n.log.head? = some {})
    (hsave : n.persistState.stateFile = some s) (h : s.Fits) :
    (RaftNode.readState {} s.bytes).currentTerm = n.currentTerm ∧
      (RaftNode.readState {} s.bytes).votedFor = n.votedFor ∧ (RaftNode.readState {} s.bytes).log = n.log := by
  obtain ⟨hterm, hvote, hentries⟩ := RaftNode.Recovered.readState h
  cases hsave
  exact ⟨hterm, hvote, hentries.trans (List.cons_head?_tail hlog)⟩

theorem state_round_trip_two : (RaftNode.readState {} (StateFile.bytes ⟨7, [], [⟨7, 9, [1, 2]⟩, ⟨3, 4, []⟩]⟩)).log =
    [{}, ⟨7, 9, [1, 2]⟩, ⟨3, 4, []⟩] := by
  refine (state_round_trip (n := { currentTerm := 7, log := [{}, ⟨7, 9, [1, 2]⟩, ⟨3, 4, []⟩] }) rfl rfl
    ⟨by decide, by decide, by decide, ?_⟩).2.2
  rintro e (_ | ⟨_, _ | ⟨_, h⟩⟩)
  · exact ⟨by decide, by decide, by decide⟩
  · exact ⟨by decide, by decide, by decide⟩
  · cases h

theorem RaftNode.readState_eq_restoreState {n : RaftNode} {s : StateFile} (hfile : n.stateFile = some s) (h : s.Fits) :
    n.readState s.bytes = n.restoreState := by
  rw [readState_intact n h, restoreState, hfile]

theorem isPrefix_usable (bytes : Bytes) : usable bytes <+: bytes := by
  rw [usable]
  split
  · exact List.take_prefix _ _
  · dsimp only
    split
    · exact List.take_prefix _ _
    · exact List.prefix_rfl

theorem RaftNode.Recovered.iff_eq {n : RaftNode} {s t : StateFile} (h : n.Recovered s) : n.Recovered t ↔ s = t := by
  refine ⟨fun ht => ?_, fun hst => hst ▸ h⟩
  obtain ⟨term, votedFor, entries⟩ := s
  obtain ⟨term', votedFor', entries'⟩ := t
  obtain rfl : term = term' := h.term.symm.trans ht.term
  obtain rfl : votedFor = votedFor' := h.votedFor.symm.trans ht.votedFor
  obtain rfl : entries = entries' := List.tail_eq_of_cons_eq (h.log.symm.trans ht.log)
  rfl

/-- A state is recovered from the front part of the file of another if the usable bytes of that part, with zeros
behind them, are a file of this state too. -/
theorem recovered_prefix_iff {s t : StateFile} {bytes : Bytes} (hs : s.Fits) (ht : t.Fits) (h : bytes <+: s.bytes) :
    (RaftNode.readState {} bytes).Recovered t ↔ Padded t.bytes (usable bytes) := by
  rw [(RaftNode.readState_recovered bytes).iff_eq, StateFile.bytes_eq]
  refine stateLayout.read_eq_iff hs.layout ht.layout ?_
  rw [← StateFile.bytes_eq]
  exact (isPrefix_usable bytes).trans h

/-- The old or the new state comes back exactly if the file is still the old one, or what is usable of it can be
the front part of the file of one of them, with nothing but zeros cut off. -/
theorem crash_recovers_iff {s0 s1 : StateFile} (h0 : s0.Fits) (h1 : s1.Fits) (crash : CrashPoint) :
    (∃ s ∈ [s0, s1], (RaftNode.readState {} (crash.file s0 s1)).Recovered s) ↔
      crash = .closed ∨ ∃ s ∈ [s0, s1], Padded s.bytes (usable (crash.file s0 s1)) := by
  cases crash with
  | closed =>
      exact iff_of_true ⟨s0, List.mem_cons_self, .readState h0⟩ (.inl rfl)
  | written count =>
      have hprefix : CrashPoint.file s0 s1 (.written count) <+: s1.bytes := by
        rw [CrashPoint.file_written]
        exact List.take_prefix count s1.bytes
      have hfits : ∀ s ∈ [s0, s1], s.Fits := by simp [h0, h1]
      constructor
      · rintro ⟨s, hs, hrec⟩
        exact .inr ⟨s, hs, (recovered_prefix_iff h1 (hfits s hs) hprefix).mp hrec⟩
      · rintro (hclosed | ⟨s, hs, hpad⟩)
        · cases hclosed
        · exact ⟨s, hs, (recovered_prefix_iff h1 (hfits s hs) hprefix).mpr hpad⟩

theorem crash_recovers_voteless : ∃ s ∈ [⟨5, [97], []⟩, ⟨6, [], []⟩],
    (RaftNode.readState {} (CrashPoint.file ⟨5, [97], []⟩ ⟨6, [], []⟩ (.written 8))).Recovered s := by
  refine (crash_recovers_iff ⟨by decide, by decide, by decide, by simp⟩
    ⟨by decide, by decide, by decide, by simp⟩ _).mpr
    (.inr ⟨⟨6, [], []⟩, by simp, 16, by decide⟩)

/-- The vote of term 5 is on disk. A crash right after the file is opened for the state of term 6 leaves a node of
term 0 that has not voted. -/
theorem crash_forgets_vote : ∃ s0 s1 : StateFile, s0.Fits ∧ s1.Fits ∧ ∃ crash : CrashPoint,
    (RaftNode.readState {} (crash.file s0 s1)).currentTerm < s0.term ∧
      (RaftNode.readState {} (crash.file s0 s1)).votedFor = [] ∧
      ¬ ∃ s ∈ [s0, s1], (RaftNode.readState {} (crash.file s0 s1)).Recovered s := by
  refine ⟨⟨5, [97], []⟩, ⟨6, [98], []⟩, ⟨by decide, by decide, by decide, by simp⟩,
    ⟨by decide, by decide, by decide, by simp⟩, .written 0, by decide, by decide, ?_⟩
  simp only [List.mem_cons, List.not_mem_nil, or_false, exists_eq_or_imp, exists_eq_left]
  decide

end MiniStorage.Raft
