import MiniStorage.Engine.Log

namespace MiniStorage.Engine

/-- Those of the records that end at or before byte `cut` of a log, the first one starting at byte `start`. -/
def recordsBefore (cut : Nat) : Nat → List Bytes → List Bytes
  | _, [] => []
  | start, data :: rest =>
      let stop := start + (kHeaderSize + data.length)
      if stop ≤ cut then data :: recordsBefore cut stop rest else recordsBefore cut stop rest

/-- What so many calls of ReadRecord return, one after the other. -/
def LogReader.readRecords : Nat → LogReader → Option (List (Option Bytes))
  | 0, _ => some []
  | n + 1, r => do
      let (record, r) ← r.readRecord
      let records ← readRecords n r
      return record :: records

theorem length_physicalRecord (type : RecordType) (data : Bytes) :
    (physicalRecord type data).length = kHeaderSize + data.length := by
  simp only [physicalRecord, List.length_append, length_encodeFixed32, List.length_cons, List.length_nil, kHeaderSize]

/-- Behind a record that is cut there is none that is whole. -/
theorem recordsBefore_of_lt {cut start : Nat} (records : List Bytes) (h : cut < start) :
    recordsBefore cut start records = [] := by
  induction records generalizing start with
  | nil => rfl
  | cons data rest ih =>
      have hstop : cut < start + (kHeaderSize + data.length) := by omega
      simp only [recordsBefore]
      rw [if_neg (by omega)]
      exact ih hstop

namespace LogReader

/-- ReadRecord does not look at the file any more. -/
def Ended (r : LogReader) : Prop := r.ok = false ∨ r.eof = true

theorem Ended.readRecord {r : LogReader} (h : r.Ended) : r.readRecord = some (none, r) := by
  have hstop : (!r.ok || r.eof) = true := by
    rcases h with h | h
    · simp [h]
    · simp [h]
  rw [LogReader.readRecord, if_pos hstop]

theorem Ended.readRecords {r : LogReader} (h : r.Ended) (n : Nat) : readRecords n r = some (List.replicate n none) := by
  induction n with
  | zero => rfl
  | succ n ih =>
      rw [LogReader.readRecords, h.readRecord]
      simp only [Option.bind_eq_bind, Option.bind_some, ih, List.replicate_succ, Option.pure_def]

/-- A header that is cut off, or a payload that is, is no record. -/
theorem readPhysicalRecord_torn {r : LogReader} {type : RecordType} {data : Bytes} {n : Nat}
    (hf : r.file.failed = false) (hr : r.file.rest = (physicalRecord type data).take n)
    (hn : n < (physicalRecord type data).length) (hd : data.length < 65536) :
    ∃ r', r.readPhysicalRecord = some (none, r') := by
  rw [length_physicalRecord] at hn
  rcases Nat.lt_or_ge n kHeaderSize with hshort | hlong
  · have hlt : (r.file.read kHeaderSize).1.length < kHeaderSize := by
      have hlen := IFStream.length_rest_read r.file kHeaderSize
      rw [hr, List.length_take] at hlen
      omega
    simp only [readPhysicalRecord, hlt, if_true, Option.pure_def]
    exact ⟨_, rfl⟩
  · let header := encodeFixed32 (valueCRC32 (valueCRC32 0xFFFFFFFF [type.toByte]) data) ++
      [UInt8.ofNat (data.length &&& 0xff), UInt8.ofNat (data.length >>> 8), type.toByte]
    have hlen : header.length = kHeaderSize := rfl
    have hcut : r.file.rest = header ++ data.take (n - kHeaderSize) := by
      rw [hr, physicalRecord, List.take_append, List.take_of_length_le (by rw [hlen]; exact hlong), hlen]
    obtain ⟨f₁, h₁, hf₁, hr₁, -⟩ := IFStream.read_append hf hcut hlen
    have hgot : (f₁.read data.length).1.length < data.length := by
      have hrest := IFStream.length_rest_read f₁ data.length
      rw [hr₁, List.length_take] at hrest
      omega
    have h4 : header.getD 4 0 = UInt8.ofNat (data.length &&& 0xff) := rfl
    have h5 : header.getD 5 0 = UInt8.ofNat (data.length >>> 8) := rfl
    have hcrc : decodeFixed32 header = some (valueCRC32 (valueCRC32 0xFFFFFFFF [type.toByte]) data) :=
      decodeFixed32_append ..
    simp only [readPhysicalRecord, h₁, hlen, lt_irrefl, if_false, hcrc, h4, h5, length_field hd, hgot, if_true,
      Option.bind_eq_bind, Option.bind_some, Option.pure_def]
    exact ⟨_, rfl⟩

theorem readRecord_torn {r r' : LogReader} (ho : r.ok = true) (he : r.eof = false)
    (h : r.readPhysicalRecord = some (none, r')) : r.readRecord = some (none, { r' with eof := true }) := by
  simp only [readRecord, ho, he, Bool.not_true, Bool.or_self, Bool.false_eq_true, if_false, readRecordLoop, h,
    Option.bind_eq_bind, Option.bind_some, Option.pure_def]

theorem readRecords_torn {r r' : LogReader} (ho : r.ok = true) (he : r.eof = false)
    (h : r.readPhysicalRecord = some (none, r')) (n : Nat) : readRecords n r = some (List.replicate n none) := by
  cases n with
  | zero => rfl
  | succ n =>
      have hended : Ended { r' with eof := true } := .inr rfl
      rw [readRecords, readRecord_torn ho he h]
      simp only [Option.bind_eq_bind, Option.bind_some, hended.readRecords n, Option.pure_def, List.replicate_succ]

/-- The calls when what is left of the file is what the cut left of these records. -/
theorem readRecords_cut {r : LogReader} {records : List Bytes} {cut start : Nat} (ho : r.ok = true) (he : r.eof = false)
    (hf : r.file.failed = false) (hr : r.file.rest = (records.flatMap (physicalRecord .full)).take (cut - start))
    (hs : start ≤ cut) (hd : ∀ data ∈ records, data.length < 65536) (n : Nat) :
    readRecords n r = some ((List.range n).map fun i => (recordsBefore cut start records)[i]?) := by
  have hnone (n : Nat) : (List.range n).map (fun i => ([] : List Bytes)[i]?) = List.replicate n none := by
    simp [List.map_const']
  induction records generalizing r start n with
  | nil =>
      have hempty : r.file.rest = (physicalRecord .full []).take 0 := by simpa using hr
      obtain ⟨r', hread⟩ := readPhysicalRecord_torn hf hempty (by simp [length_physicalRecord, kHeaderSize]) (by simp)
      rw [recordsBefore, hnone]
      exact readRecords_torn ho he hread n
  | cons data rest ih =>
      obtain ⟨hdata, hrest⟩ := List.forall_mem_cons.mp hd
      have hlen := length_physicalRecord .full data
      rw [List.flatMap_cons] at hr
      simp only [recordsBefore]
      by_cases hcut : start + (kHeaderSize + data.length) ≤ cut
      · rw [if_pos hcut]
        cases n with
        | zero => rfl
        | succ n =>
            rw [List.take_append, List.take_of_length_le (by omega), hlen, Nat.sub_sub] at hr
            obtain ⟨f, hread, hf', hr'⟩ := readRecord_append ho he hf hr hdata
            have hloop := ih (r := { r with file := f }) ho he hf' hr' hcut hrest n
            rw [readRecords, hread]
            simp only [Option.bind_eq_bind, Option.bind_some, hloop, Option.pure_def, List.range_succ_eq_map,
              List.map_cons, List.getElem?_cons_zero, List.map_map]
            rfl
      · rw [if_neg hcut, recordsBefore_of_lt rest (by omega), hnone]
        rw [List.take_append_of_le_length (by omega)] at hr
        obtain ⟨r', hread⟩ := readPhysicalRecord_torn hf hr (by omega) hdata
        exact readRecords_torn ho he hread n

end LogReader

/-- A log that is cut anywhere reads as the records in front of the cut, and as nothing behind them. -/
theorem wal_torn_tail (room : Option Nat) (records : List Bytes) (w : LogWriter)
    (h : (LogWriter.create true room).addRecords records = some w) (hd : ∀ data ∈ records, data.length ≤ 65535)
    (cut n : Nat) :
    LogReader.readRecords n (.ofFile (some (w.close.take cut))) =
      some ((List.range n).map fun i => (recordsBefore cut 0 records)[i]?) := by
  obtain ⟨hg, hb⟩ := LogWriter.addRecords_some rfl h
  refine LogReader.readRecords_cut rfl rfl rfl ?_ (Nat.zero_le cut) (fun data hm => Nat.lt_succ_of_le (hd data hm)) n
  rw [LogWriter.close_eq hg, hb]
  rfl

theorem wal_torn_tail_two : ∃ w, (LogWriter.create true none).addRecords [[1], []] = some w ∧
    LogReader.readRecords 3 (.ofFile (some (w.close.take 14))) = some [some [1], none, none] := by
  obtain ⟨w, hw⟩ := LogWriter.addRecords_isSome (w := .create true none) [[1], []] rfl rfl rfl
  exact ⟨w, hw, wal_torn_tail none [[1], []] w hw (by simp) 14 3⟩

end MiniStorage.Engine
