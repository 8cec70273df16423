import MiniStorage.Engine.Coding
import MiniStorage.Engine.Crc
import MiniStorage.Engine.Stream

namespace MiniStorage.Engine

def kHeaderSize : Nat := 7

inductive RecordType
  | zero
  | full
  | first
  | middle
  | last
deriving DecidableEq, Repr

namespace RecordType

def toByte : RecordType → UInt8
  | zero => 0
  | full => 1
  | first => 2
  | middle => 3
  | last => 4

/-- A byte that no enumerator has is no type. -/
def ofByte (b : UInt8) : Option RecordType :=
  [zero, full, first, middle, last].find? (fun t => t.toByte == b)

end RecordType

structure LogWriter where
  file : OFStream
  ok : Bool
deriving DecidableEq, Repr

namespace LogWriter

/-- The constructor with truncate, as the DB calls it. -/
def create (opened : Bool) (room : Option Nat) : LogWriter :=
  ⟨{ good := opened, room := room }, opened⟩

def emitPhysicalRecord (w : LogWriter) (type : RecordType) (data : Bytes) : Bool × LogWriter :=
  let length := data.length
  -- each cast to char keeps the low byte
  let header := [UInt8.ofNat (length &&& 0xff), UInt8.ofNat (length >>> 8), type.toByte]
  let crc := valueCRC32 0xFFFFFFFF [type.toByte]
  let crc := valueCRC32 crc data
  let file := (w.file.write (encodeFixed32 crc ++ header)).write data
  (file.good, ⟨file, file.good⟩)

def addRecord (w : LogWriter) (data : Bytes) : Bool × LogWriter :=
  if w.ok then w.emitPhysicalRecord .full data else (false, w)

def sync (w : LogWriter) : Bool × LogWriter :=
  let file := w.file.flush
  (file.good, { w with file := file })

/-- The writer behind a list of calls that all returned true. -/
def addRecords (w : LogWriter) : List Bytes → Option LogWriter
  | [] => some w
  | data :: rest =>
      match w.addRecord data with
      | (true, w') => w'.addRecords rest
      | (false, _) => none

/-- The file the destructor leaves. -/
def close (w : LogWriter) : Bytes := w.file.flush.durable

end LogWriter

structure LogReader where
  file : IFStream
  ok : Bool := true
  eof : Bool := false
deriving DecidableEq, Repr

namespace LogReader

/-- The constructor, on a file that exists or does not. -/
def ofFile : Option Bytes → LogReader
  | some bytes => { file := { bytes := bytes } }
  | none => { file := { bytes := [], failed := true }, ok := false }

/-- The record's type and payload; the type is any byte. -/
def readPhysicalRecord (r : LogReader) : Option (Option (UInt8 × Bytes) × LogReader) := do
  let (header, file) := r.file.read kHeaderSize
  if header.length < kHeaderSize then
    return (none, { r with file := file })
  let storageCrc ← decodeFixed32 header
  let length := (header.getD 5 0).toNat <<< 8 ||| (header.getD 4 0).toNat
  let type := header.getD 6 0
  let (result, file) := file.read length
  if result.length < length then
    return (none, { r with file := file, ok := false })
  let expectedCrc := valueCRC32 0xFFFFFFFF [type]
  let expectedCrc := valueCRC32 expectedCrc result
  if expectedCrc ≠ storageCrc then
    return (none, { r with file := file, ok := false })
  return (some (type, result), { r with file := file })

/-- The loop of ReadRecord, for as many turns as there is fuel. -/
def readRecordLoop : Nat → LogReader → Option (Option Bytes × LogReader)
  | 0, _ => none
  | fuel + 1, r => do
      match ← r.readPhysicalRecord with
      | (none, r) => return (none, { r with eof := true })
      | (some (type, fragment), r) =>
          match RecordType.ofByte type with
          | some .full => return (some fragment, r)
          | some .zero => readRecordLoop fuel r
          | _ => return (none, { r with ok := false })

/-- Every turn that goes round has consumed a header. -/
def readRecord (r : LogReader) : Option (Option Bytes × LogReader) :=
  if !r.ok || r.eof then some (none, r)
  else readRecordLoop (r.file.rest.length + 1) r

/-- `isOpen` is whether the constructor found the file. What ReadRecord has made of ok_ and eof_ stays. -/
def skipToOffset (r : LogReader) (isOpen : Bool) (offset : UInt64) : Bool × LogReader :=
  if isOpen then
    let file := { r.file with failed := false }.seekg offset.toNat
    (!file.failed, { r with file := file })
  else (false, r)

/-- ReadRecord returns these records one after the other, and false from then on. -/
def ReadsExactly (r : LogReader) : List Bytes → Prop
  | [] => ∃ r', r.readRecord = some (none, r')
  | data :: rest => ∃ r', r.readRecord = some (some data, r') ∧ r'.ReadsExactly rest

end LogReader

@[simp] theorem RecordType.ofByte_toByte (t : RecordType) : RecordType.ofByte t.toByte = some t := by
  cases t <;> decide

theorem length_field {n : Nat} (h : n < 65536) :
    (UInt8.ofNat (n >>> 8)).toNat <<< 8 ||| (UInt8.ofNat (n &&& 0xff)).toNat = n := by
  have hm : n &&& 0xff = n % 2 ^ 8 := Nat.and_two_pow_sub_one_eq_mod n 8
  have hd : n >>> 8 = n / 2 ^ 8 := Nat.shiftRight_eq_div_pow n 8
  have hl : n % 2 ^ 8 < 2 ^ 8 := Nat.mod_lt _ (by decide)
  rw [hm, hd, UInt8.toNat_ofNat', UInt8.toNat_ofNat', Nat.mod_eq_of_lt (by omega), Nat.mod_eq_of_lt (by omega),
    ← Nat.shiftLeft_add_eq_or_of_lt hl, Nat.shiftLeft_eq]
  omega

theorem length_field_lt (a b : UInt8) : a.toNat <<< 8 ||| b.toNat < 65536 := by
  have ha := a.toNat_lt
  have hb := b.toNat_lt
  have hs : a.toNat <<< 8 < 2 ^ 16 := by
    rw [Nat.shiftLeft_eq]
    omega
  exact Nat.or_lt_two_pow hs (by omega)

/-- The bytes of one physical record. -/
def physicalRecord (type : RecordType) (data : Bytes) : Bytes :=
  encodeFixed32 (valueCRC32 (valueCRC32 0xFFFFFFFF [type.toByte]) data) ++
    [UInt8.ofNat (data.length &&& 0xff), UInt8.ofNat (data.length >>> 8), type.toByte] ++ data

namespace LogWriter

theorem emitPhysicalRecord_true {w w' : LogWriter} {type : RecordType} {data : Bytes}
    (h : w.emitPhysicalRecord type data = (true, w')) :
    w'.ok = true ∧ w'.file.good = true ∧ w'.file.bytes = w.file.bytes ++ physicalRecord type data := by
  simp only [emitPhysicalRecord, Prod.mk.injEq] at h
  obtain ⟨hg, rfl⟩ := h
  obtain ⟨hh, hb⟩ := OFStream.bytes_write hg
  obtain ⟨-, hb'⟩ := OFStream.bytes_write hh
  refine ⟨hg, hg, ?_⟩
  rw [hb, hb', physicalRecord, List.append_assoc]

theorem addRecord_true {w w' : LogWriter} {data : Bytes} (h : w.addRecord data = (true, w')) :
    w'.ok = true ∧ w'.file.good = true ∧ w'.file.bytes = w.file.bytes ++ physicalRecord .full data := by
  unfold addRecord at h
  split at h
  · exact emitPhysicalRecord_true h
  · cases h

theorem addRecords_some {w w' : LogWriter} {records : List Bytes} (hg : w.file.good = true)
    (h : w.addRecords records = some w') :
    w'.file.good = true ∧ w'.file.bytes = w.file.bytes ++ records.flatMap (physicalRecord .full) := by
  induction records generalizing w with
  | nil =>
      obtain rfl := Option.some.inj h
      simp [hg]
  | cons data records ih =>
      simp only [addRecords] at h
      split at h
      next w₁ hw =>
        obtain ⟨-, hg₁, hb₁⟩ := addRecord_true hw
        obtain ⟨hg', hb'⟩ := ih hg₁ h
        refine ⟨hg', ?_⟩
        rw [hb', hb₁, List.flatMap_cons, List.append_assoc]
      next => cases h

theorem addRecords_isSome {w : LogWriter} (records : List Bytes) (ho : w.ok = true) (hg : w.file.good = true)
    (hr : w.file.room = none) : ∃ w', w.addRecords records = some w' := by
  induction records generalizing w with
  | nil => exact ⟨w, rfl⟩
  | cons data records ih =>
      have hw (header : Bytes) := OFStream.good_write header hg hr
      simp only [addRecords, addRecord, ho, if_true, emitPhysicalRecord]
      obtain ⟨h₁, h₂⟩ := OFStream.good_write data (hw _).1 (hw _).2
      rw [h₁]
      exact ih rfl h₁ h₂

theorem close_eq {w : LogWriter} (hg : w.file.good = true) : w.close = w.file.bytes :=
  OFStream.durable_flush hg

end LogWriter

namespace LogReader

theorem readPhysicalRecord_append {r : LogReader} {type : RecordType} {data rest : Bytes} (hf : r.file.failed = false)
    (hr : r.file.rest = physicalRecord type data ++ rest) (hd : data.length < 65536) :
    ∃ f, r.readPhysicalRecord = some (some (type.toByte, data), { r with file := f }) ∧
      f.failed = false ∧ f.rest = rest := by
  rw [physicalRecord, List.append_assoc] at hr
  obtain ⟨f₁, h₁, hf₁, hr₁, -⟩ := IFStream.read_append (n := kHeaderSize) hf hr (by simp [kHeaderSize])
  obtain ⟨f₂, h₂, hf₂, hr₂, -⟩ := IFStream.read_append hf₁ hr₁ rfl
  refine ⟨f₂, ?_, hf₂, hr₂⟩
  have hl (crc : UInt32) (l₀ l₁ t : UInt8) : ¬ (encodeFixed32 crc ++ [l₀, l₁, t]).length < kHeaderSize := by
    simp [kHeaderSize]
  have h4 (crc : UInt32) (l₀ l₁ t : UInt8) : (encodeFixed32 crc ++ [l₀, l₁, t]).getD 4 0 = l₀ := rfl
  have h5 (crc : UInt32) (l₀ l₁ t : UInt8) : (encodeFixed32 crc ++ [l₀, l₁, t]).getD 5 0 = l₁ := rfl
  have h6 (crc : UInt32) (l₀ l₁ t : UInt8) : (encodeFixed32 crc ++ [l₀, l₁, t]).getD 6 0 = t := rfl
  simp only [readPhysicalRecord, h₁, hl, if_false, decodeFixed32_append, Option.bind_eq_bind, Option.bind_some,
    h4, h5, h6, length_field hd, h₂, lt_irrefl, ne_eq, not_true_eq_false, Option.pure_def]

/-- Whatever the file holds, a record that is read fits its length field and
has taken its header from the file. -/
theorem readPhysicalRecord_some {r r' : LogReader} {type : UInt8} {data : Bytes}
    (h : r.readPhysicalRecord = some (some (type, data), r')) :
    data.length < 65536 ∧ r'.file.rest.length < r.file.rest.length := by
  have h₁ := IFStream.length_rest_read r.file kHeaderSize
  simp only [readPhysicalRecord, Option.bind_eq_bind, Option.pure_def] at h
  split at h
  next => cases h
  next hlen =>
    obtain ⟨crc, -, h⟩ := Option.bind_eq_some_iff.mp h
    split at h
    next => cases h
    next =>
      split at h
      next => cases h
      next =>
        simp only [Option.some.injEq, Prod.mk.injEq] at h
        obtain ⟨⟨rfl, rfl⟩, rfl⟩ := h
        have h₂ := IFStream.length_rest_read (r.file.read kHeaderSize).2
          (((r.file.read kHeaderSize).1.getD 5 0).toNat <<< 8 ||| ((r.file.read kHeaderSize).1.getD 4 0).toNat)
        constructor
        · exact lt_of_le_of_lt (IFStream.length_read _ _) (length_field_lt _ _)
        · simp only [kHeaderSize] at hlen h₁ h₂ ⊢
          omega

theorem readPhysicalRecord_isSome (r : LogReader) : r.readPhysicalRecord.isSome := by
  simp only [readPhysicalRecord, Option.bind_eq_bind, Option.pure_def]
  split
  next => rfl
  next hlen =>
    have h4 : 4 ≤ (r.file.read kHeaderSize).1.length := by
      simp only [kHeaderSize] at hlen ⊢
      omega
    obtain ⟨crc, hc⟩ := Option.isSome_iff_exists.mp (decodeFixed32_isSome h4)
    rw [hc, Option.bind_some]
    split
    · rfl
    · split <;> rfl

theorem readRecordLoop_isSome {fuel : Nat} {r : LogReader} (h : r.file.rest.length < fuel) :
    (readRecordLoop fuel r).isSome := by
  induction fuel generalizing r with
  | zero => omega
  | succ fuel ih =>
      obtain ⟨⟨p, r'⟩, hp⟩ := Option.isSome_iff_exists.mp (readPhysicalRecord_isSome r)
      rw [readRecordLoop, hp]
      simp only [Option.bind_eq_bind, Option.bind_some]
      rcases p with _ | ⟨type, fragment⟩
      · rfl
      · have hlt := (readPhysicalRecord_some hp).2
        dsimp only
        split
        · rfl
        · exact ih (by omega)
        · rfl

theorem readRecord_isSome (r : LogReader) : r.readRecord.isSome := by
  unfold readRecord
  split
  · rfl
  · exact readRecordLoop_isSome (Nat.lt_succ_self _)

theorem readRecordLoop_some {fuel : Nat} {r r' : LogReader} {data : Bytes}
    (h : readRecordLoop fuel r = some (some data, r')) :
    data.length < 65536 ∧ r'.file.rest.length < r.file.rest.length := by
  induction fuel generalizing r with
  | zero => cases h
  | succ fuel ih =>
      rw [readRecordLoop] at h
      obtain ⟨⟨p, r₁⟩, hp, h⟩ := Option.bind_eq_some_iff.mp h
      rcases p with _ | ⟨type, fragment⟩
      · cases h
      · have hread := readPhysicalRecord_some hp
        dsimp only at h
        split at h
        next =>
          simp only [Option.pure_def, Option.some.injEq, Prod.mk.injEq] at h
          obtain ⟨rfl, rfl⟩ := h
          exact hread
        next => exact ⟨(ih h).1, lt_trans (ih h).2 hread.2⟩
        next => cases h

theorem readRecord_some {r r' : LogReader} {data : Bytes} (h : r.readRecord = some (some data, r')) :
    data.length < 65536 ∧ r'.file.rest.length < r.file.rest.length := by
  unfold readRecord at h
  split at h
  · cases h
  · exact readRecordLoop_some h

theorem readRecord_append {r : LogReader} {data rest : Bytes} (ho : r.ok = true) (he : r.eof = false)
    (hf : r.file.failed = false) (hr : r.file.rest = physicalRecord .full data ++ rest) (hd : data.length < 65536) :
    ∃ f, r.readRecord = some (some data, { r with file := f }) ∧ f.failed = false ∧ f.rest = rest := by
  obtain ⟨f, hp, hf', hr'⟩ := readPhysicalRecord_append hf hr hd
  refine ⟨f, ?_, hf', hr'⟩
  simp [readRecord, ho, he, readRecordLoop, hp]

theorem readRecord_nil {r : LogReader} (hr : r.file.rest = []) :
    ∃ r', r.readRecord = some (none, r') := by
  have hlt : (r.file.read kHeaderSize).1.length < kHeaderSize := by
    have h := IFStream.length_rest_read r.file kHeaderSize
    rw [hr] at h
    simp only [List.length_nil, kHeaderSize] at h ⊢
    omega
  unfold readRecord
  split
  · exact ⟨_, rfl⟩
  · simp only [readRecordLoop, readPhysicalRecord, hlt, if_true, Option.pure_def, Option.bind_eq_bind, Option.bind_some]
    exact ⟨_, rfl⟩

theorem ReadsExactly.length_lt {r : LogReader} {records : List Bytes} (h : r.ReadsExactly records) :
    ∀ data ∈ records, data.length < 65536 := by
  induction records generalizing r with
  | nil => simp
  | cons data records ih =>
      obtain ⟨r', hread, hrest⟩ := h
      intro d hd
      rcases List.mem_cons.mp hd with rfl | hd
      · exact (readRecord_some hread).1
      · exact ih hrest d hd

end LogReader

end MiniStorage.Engine
