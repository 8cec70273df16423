import MiniStorage.Objects
import MiniStorage.Engine.TornLog

namespace MiniStorage.Engine

inductive LogCall
  | readRecord
  | skipToOffset (offset : UInt64)
deriving DecidableEq, Repr

inductive LogAnswer
  | record (record : Option Bytes)
  | skipped (ok : Bool)
deriving DecidableEq, Repr

/-- A call on a reader whose file the constructor found. -/
def LogReader.call (r : LogReader) : LogCall → Option (LogAnswer × LogReader)
  | .readRecord => r.readRecord.map fun (record, r) => (.record record, r)
  | .skipToOffset offset =>
      let (ok, r) := r.skipToOffset true offset
      some (.skipped ok, r)

/-- Those of the records of a log that is cut at byte `cut` that start at `offset` or behind it. -/
def recordsFrom (cut offset : Nat) : Nat → List Bytes → List Bytes
  | _, [] => []
  | start, data :: rest =>
      if offset ≤ start then recordsBefore cut start (data :: rest)
      else recordsFrom cut offset (start + (kHeaderSize + data.length)) rest

/-- The records that a reader is still to give out, and whether it has said that there are none. -/
structure Playback where
  rest : List Bytes
  ended : Bool := false
deriving DecidableEq, Repr

/-- Once the end has been met there is no way back. -/
def Playback.call (cut : Nat) (records : List Bytes) (p : Playback) : LogCall → LogAnswer × Playback
  | .readRecord =>
      match p.ended, p.rest with
      | false, data :: rest => (.record (some data), { p with rest := rest })
      | _, _ => (.record none, { p with ended := true })
  | .skipToOffset offset =>
      if offset.toNat < 2 ^ 63 then (.skipped true, { p with rest := recordsFrom cut offset.toNat 0 records })
      else (.skipped false, { p with rest := [] })

def logSize (records : List Bytes) : Nat := (records.flatMap (physicalRecord .full)).length

/-- Some record starts there, or the log ends there. -/
def StartsRecord (records : List Bytes) (offset : Nat) : Prop :=
  ∃ before behind, records = before ++ behind ∧ offset = logSize before

theorem logSize_cons (data : Bytes) (records : List Bytes) :
    logSize (data :: records) = kHeaderSize + data.length + logSize records := by
  rw [logSize, List.flatMap_cons, List.length_append, length_physicalRecord]
  rfl

theorem recordsFrom_append (cut start : Nat) (before behind : List Bytes) :
    recordsFrom cut (start + logSize before) start (before ++ behind) =
      recordsBefore cut (start + logSize before) behind := by
  induction before generalizing start with
  | nil =>
      cases behind with
      | nil => rfl
      | cons data behind => exact if_pos le_rfl
  | cons data before ih =>
      have hstart : ¬ start + logSize (data :: before) ≤ start := by
        rw [logSize_cons]
        simp only [kHeaderSize]
        omega
      have hnext : start + logSize (data :: before) = start + (kHeaderSize + data.length) + logSize before := by
        rw [logSize_cons]
        omega
      rw [List.cons_append, recordsFrom, if_neg hstart, hnext]
      exact ih _

theorem recordsBefore_of_le {cut start : Nat} (records : List Bytes) (h : cut ≤ start) :
    recordsBefore cut start records = [] := by
  cases records with
  | nil => rfl
  | cons data rest =>
      have hstop : cut < start + (kHeaderSize + data.length) := by
        simp only [kHeaderSize]
        omega
      rw [recordsBefore, if_neg (not_le.mpr hstop)]
      exact recordsBefore_of_lt rest hstop

theorem recordsFrom_of_le {cut offset start : Nat} {records : List Bytes}
    (h : cut ≤ offset ∨ start + logSize records ≤ offset) : recordsFrom cut offset start records = [] := by
  induction records generalizing start with
  | nil => rfl
  | cons data records ih =>
      rw [recordsFrom]
      split
      next hle =>
        apply recordsBefore_of_le
        rw [logSize_cons] at h
        simp only [kHeaderSize] at h
        omega
      next =>
        apply ih
        rw [logSize_cons] at h
        exact h.imp_right (by omega)

namespace LogReader

theorem bytes_readPhysicalRecord {r r' : LogReader} {x : Option (UInt8 × Bytes)}
    (h : r.readPhysicalRecord = some (x, r')) : r'.file.bytes = r.file.bytes := by
  have hheader := (IFStream.read_snd r.file kHeaderSize).1
  simp only [readPhysicalRecord, Option.bind_eq_bind, Option.pure_def] at h
  split at h
  next =>
    simp only [Option.some.injEq, Prod.mk.injEq] at h
    rw [← h.2]
    exact hheader
  next =>
    obtain ⟨crc, -, h⟩ := Option.bind_eq_some_iff.mp h
    have hdata := (IFStream.read_snd (r.file.read kHeaderSize).2
      (((r.file.read kHeaderSize).1.getD 5 0).toNat <<< 8 ||| ((r.file.read kHeaderSize).1.getD 4 0).toNat)).1
    split at h
    next =>
      simp only [Option.some.injEq, Prod.mk.injEq] at h
      rw [← h.2]
      exact hdata.trans hheader
    next =>
      split at h <;> simp only [Option.some.injEq, Prod.mk.injEq] at h
      all_goals
        rw [← h.2]
        exact hdata.trans hheader

theorem bytes_readRecordLoop {fuel : Nat} {r r' : LogReader} {x : Option Bytes}
    (h : readRecordLoop fuel r = some (x, r')) : r'.file.bytes = r.file.bytes := by
  induction fuel generalizing r with
  | zero => cases h
  | succ fuel ih =>
      rw [readRecordLoop] at h
      obtain ⟨⟨p, r₁⟩, hp, h⟩ := Option.bind_eq_some_iff.mp h
      have hread := bytes_readPhysicalRecord hp
      rcases p with _ | ⟨type, fragment⟩
      · simp only [Option.pure_def, Option.some.injEq, Prod.mk.injEq] at h
        rw [← h.2]
        exact hread
      · dsimp only at h
        split at h
        next =>
          simp only [Option.pure_def, Option.some.injEq, Prod.mk.injEq] at h
          rw [← h.2]
          exact hread
        next => exact (ih h).trans hread
        next =>
          simp only [Option.pure_def, Option.some.injEq, Prod.mk.injEq] at h
          rw [← h.2]
          exact hread

/-- The file is only read. -/
theorem bytes_readRecord {r r' : LogReader} {x : Option Bytes} (h : r.readRecord = some (x, r')) :
    r'.file.bytes = r.file.bytes := by
  unfold readRecord at h
  split at h
  · simp only [Option.some.injEq, Prod.mk.injEq] at h
    rw [← h.2]
  · exact bytes_readRecordLoop h

/-- What can still be read is what the cut has left of some records, and these records are still to come. -/
structure Reads (cut : Nat) (r : LogReader) (rest : List Bytes) : Prop where
  ok : r.ok = true
  eof : r.eof = false
  ahead : ∃ start records, start ≤ cut ∧ r.file.unread = (records.flatMap (physicalRecord .full)).take (cut - start) ∧
    (∀ data ∈ records, data.length < 65536) ∧ rest = recordsBefore cut start records

/-- The reader has met the end, or it is where the cursor is. -/
def Follows (log : Bytes) (cut : Nat) (r : LogReader) (p : Playback) : Prop :=
  r.file.bytes = log ∧ (p.ended = true ∧ r.Ended ∨ p.ended = false ∧ r.Reads cut p.rest)

theorem readRecord_of_unread_nil {r : LogReader} (ho : r.ok = true) (he : r.eof = false) (h : r.file.unread = []) :
    ∃ r', r.readRecord = some (none, r') ∧ r'.Ended := by
  have hlt : (r.file.read kHeaderSize).1.length < kHeaderSize := by
    rw [IFStream.read_fst, h]
    decide
  have hread : r.readPhysicalRecord = some (none, { r with file := (r.file.read kHeaderSize).2 }) := by
    simp only [readPhysicalRecord, hlt, if_true, Option.pure_def]
  exact ⟨_, readRecord_torn ho he hread, .inr rfl⟩

/-- The next record that is whole, or the end. -/
theorem Reads.readRecord {cut : Nat} {r : LogReader} {rest : List Bytes} (h : r.Reads cut rest) :
    (rest = [] ∧ ∃ r', r.readRecord = some (none, r') ∧ r'.Ended) ∨
      ∃ data rest', rest = data :: rest' ∧ ∃ r', r.readRecord = some (some data, r') ∧ r'.Reads cut rest' := by
  obtain ⟨ho, he, start, records, hs, hunread, hd, rfl⟩ := h
  cases records with
  | nil => exact .inl ⟨rfl, readRecord_of_unread_nil ho he (by simpa using hunread)⟩
  | cons data records =>
      obtain ⟨hdata, hrest⟩ := List.forall_mem_cons.mp hd
      have hlen := length_physicalRecord .full data
      rw [List.flatMap_cons] at hunread
      by_cases hcut : start + (kHeaderSize + data.length) ≤ cut
      · rw [List.take_append, List.take_of_length_le (by omega), hlen, Nat.sub_sub] at hunread
        have hf : r.file.failed = false := by
          by_contra hfailed
          rw [IFStream.unread, if_pos (by simpa using hfailed)] at hunread
          have hnil := congrArg List.length hunread
          simp only [List.length_nil, List.length_append, hlen, kHeaderSize] at hnil
          omega
        rw [IFStream.unread, if_neg (by simp [hf])] at hunread
        obtain ⟨f, hread, hf', hr'⟩ := readRecord_append ho he hf hunread hdata
        refine .inr ⟨data, recordsBefore cut (start + (kHeaderSize + data.length)) records, ?_, _, hread, ho, he,
          _, records, hcut, ?_, hrest, rfl⟩
        · rw [recordsBefore, if_pos hcut]
        · rw [IFStream.unread, if_neg (by simp [hf'])]
          exact hr'
      · refine .inl ⟨?_, ?_⟩
        · rw [recordsBefore, if_neg hcut]
          exact recordsBefore_of_lt records (by omega)
        · rw [List.take_append_of_le_length (by omega)] at hunread
          by_cases hf : r.file.failed = true
          · rw [IFStream.unread, if_pos hf] at hunread
            exact readRecord_of_unread_nil ho he (by rw [IFStream.unread, if_pos hf])
          · rw [IFStream.unread, if_neg hf] at hunread
            obtain ⟨r', hread⟩ := readPhysicalRecord_torn (by simpa using hf) hunread (by omega) hdata
            exact ⟨_, readRecord_torn ho he hread, .inr rfl⟩

theorem Reads.of_unread_nil {cut : Nat} {r : LogReader} (ho : r.ok = true) (he : r.eof = false)
    (h : r.file.unread = []) : r.Reads cut [] :=
  ⟨ho, he, cut, [], le_rfl, by simpa using h, by simp, rfl⟩

/-- SkipToOffset goes to the records from there on. -/
theorem reads_skipToOffset {cut : Nat} {r : LogReader} {records : List Bytes} (ho : r.ok = true) (he : r.eof = false)
    (hbytes : r.file.bytes = (records.flatMap (physicalRecord .full)).take cut)
    (hd : ∀ data ∈ records, data.length < 65536) {offset : UInt64}
    (hstarts : StartsRecord records offset.toNat ∨ r.file.bytes.length ≤ offset.toNat)
    (hlt : offset.toNat < 2 ^ 63) :
    (r.skipToOffset true offset).2.Reads cut (recordsFrom cut offset.toNat 0 records) := by
  have hunread : (r.skipToOffset true offset).2.file.unread = r.file.bytes.drop offset.toNat := by
    have hok : ¬ (({ r.file with failed := false } : IFStream).failed = true ∨ 2 ^ 63 ≤ offset.toNat) := by
      simpa using hlt
    rw [skipToOffset, if_pos rfl]
    exact (IFStream.unread_seekg _ _).trans (if_neg hok)
  have hsame : (r.skipToOffset true offset).2.ok = true ∧ (r.skipToOffset true offset).2.eof = false := ⟨ho, he⟩
  rcases le_or_gt r.file.bytes.length offset.toNat with hle | hinside
  · have hnone : recordsFrom cut offset.toNat 0 records = [] := by
      apply recordsFrom_of_le
      rw [hbytes, List.length_take, min_le_iff] at hle
      simpa [logSize] using hle
    rw [hnone]
    exact .of_unread_nil hsame.1 hsame.2 (by rw [hunread, List.drop_eq_nil_of_le hle])
  · obtain ⟨before, behind, rfl, hoffset⟩ := hstarts.resolve_right (not_le.mpr hinside)
    have hcut : offset.toNat ≤ cut := by
      rw [hbytes, List.length_take] at hinside
      omega
    refine ⟨hsame.1, hsame.2, offset.toNat, behind, hcut, ?_, fun data hm => hd data (List.mem_append_right _ hm), ?_⟩
    · rw [hunread, hbytes, List.drop_take, List.flatMap_append, hoffset, logSize, List.drop_left]
    · have hfrom := recordsFrom_append cut 0 before behind
      rw [Nat.zero_add, ← hoffset] at hfrom
      exact hfrom

theorem bytes_skipToOffset (r : LogReader) (offset : UInt64) :
    (r.skipToOffset true offset).2.file.bytes = r.file.bytes := by
  rw [skipToOffset, if_pos rfl]
  exact (IFStream.seekg_snd _ _).1

theorem skipToOffset_fst (r : LogReader) (offset : UInt64) :
    (r.skipToOffset true offset).1 = decide (offset.toNat < 2 ^ 63) := by
  have hfailed := (IFStream.seekg_snd { r.file with failed := false } offset.toNat).2
  rw [skipToOffset, if_pos rfl]
  by_cases hlt : offset.toNat < 2 ^ 63
  · have hok := mt hfailed.mp (by simpa using hlt)
    simp only [Bool.not_eq_true] at hok
    simp only [hok, hlt, decide_true, Bool.not_false]
  · have hbad := hfailed.mpr (.inr (not_lt.mp hlt))
    simp only [hbad, hlt, decide_false, Bool.not_true]

variable {log : Bytes} {cut : Nat} {records : List Bytes} {r : LogReader} {p : Playback}

theorem Follows.readRecord (h : r.Follows log cut p) :
    ∃ r', r.call .readRecord = some ((p.call cut records .readRecord).1, r') ∧
      r'.Follows log cut (p.call cut records .readRecord).2 := by
  obtain ⟨rest, ended⟩ := p
  obtain ⟨hbytes, ⟨hp, hended⟩ | ⟨hp, hreads⟩⟩ := h
  all_goals
    dsimp only at hp
    subst hp
  · exact ⟨r, by rw [call, hended.readRecord]; rfl, hbytes, .inl ⟨rfl, hended⟩⟩
  · rcases hreads.readRecord with ⟨hnil, r', hread, hended⟩ | ⟨data, rest', hcons, r', hread, hreads'⟩
    · dsimp only at hnil
      subst hnil
      exact ⟨r', by rw [call, hread]; rfl, (bytes_readRecord hread).trans hbytes, .inl ⟨rfl, hended⟩⟩
    · dsimp only at hcons
      subst hcons
      exact ⟨r', by rw [call, hread]; rfl, (bytes_readRecord hread).trans hbytes, .inr ⟨rfl, hreads'⟩⟩

theorem Follows.skipToOffset (h : r.Follows log cut p) (hlog : log = (records.flatMap (physicalRecord .full)).take cut)
    (hd : ∀ data ∈ records, data.length < 65536) {offset : UInt64}
    (hstarts : StartsRecord records offset.toNat ∨ log.length ≤ offset.toNat) :
    ∃ r', r.call (.skipToOffset offset) = some ((p.call cut records (.skipToOffset offset)).1, r') ∧
      r'.Follows log cut (p.call cut records (.skipToOffset offset)).2 := by
  obtain ⟨hbytes, hplace⟩ := h
  have hsame := (bytes_skipToOffset r offset).trans hbytes
  have hcall : r.call (.skipToOffset offset) =
      some (.skipped (r.skipToOffset true offset).1, (r.skipToOffset true offset).2) := rfl
  refine ⟨(r.skipToOffset true offset).2, ?_, ?_⟩
  · rw [hcall, skipToOffset_fst, Playback.call]
    split
    next hlt => simp only [hlt, decide_true]
    next hlt => simp only [hlt, decide_false]
  · rw [Playback.call]
    rcases hplace with ⟨hp, hended⟩ | ⟨hp, hreads⟩
    · split <;> exact ⟨hsame, .inl ⟨hp, hended⟩⟩
    · split
      next hlt =>
        exact ⟨hsame, .inr ⟨hp, reads_skipToOffset hreads.ok hreads.eof (hbytes.trans hlog) hd
          (by rw [hbytes]; exact hstarts) hlt⟩⟩
      next hlt =>
        refine ⟨hsame, .inr ⟨hp, .of_unread_nil hreads.ok hreads.eof ?_⟩⟩
        rw [LogReader.skipToOffset, if_pos rfl]
        exact (IFStream.unread_seekg _ _).trans (if_pos (.inr (not_lt.mp hlt)))

end LogReader

end MiniStorage.Engine
