import MiniStorage.Engine.Log
import MiniStorage.Engine.MemTable
import MiniStorage.Engine.SSTableBuilder
import MiniStorage.Engine.SSTableReader
import MiniStorage.Engine.WriteBatch
import Mathlib.Data.List.Nodup

namespace MiniStorage.Engine

/-- The directory db_path: its files by their names. -/
abbrev Disk := SortedMap Bytes Bytes

/-- '/' -/
def slash : UInt8 := 47

/-- The part of a path behind its last '/'. -/
def fileName (path : Bytes) : Bytes := (path.reverse.takeWhile (fun c => c != slash)).reverse

/-- `dir / name` of std::filesystem. -/
def joinPath (dir name : Bytes) : Bytes :=
  if dir.getLast?.all (fun c => c == slash) then dir ++ name else dir ++ slash :: name

namespace Disk

def read (d : Disk) (path : Bytes) : Option Bytes := d.find (fileName path)

def store (d : Disk) (path bytes : Bytes) : Disk := d.insert (fileName path) bytes

def remove (d : Disk) (path : Bytes) : Disk := d.erase (fileName path)

end Disk

/-- How opening a new file went, and how many bytes the device takes then. -/
structure Outcome where
  opened : Bool := true
  room : Option Nat := none
deriving DecidableEq, Repr

/-- The files one call can create. -/
structure Io where
  table : Outcome := {}
  merged : Outcome := {}
  log : Outcome := {}
deriving DecidableEq, Repr

/-- A file that could not be opened leaves the directory as it was. -/
def Disk.create (d : Disk) (path : Bytes) (io : Outcome) (bytes : Bytes) : Disk :=
  if io.opened then d.store path bytes else d

structure Options where
  writeBufferSize : Nat := 4 * 1024 * 1024
  dbPath : Bytes := [46, 47, 100, 97, 116, 97] -- "./data"
  maxSstableCount : Int32 := 4
  blockCacheSize : Nat := 128
deriving DecidableEq

structure DB where
  options : Options
  nextSstId : UInt64
  memTable : MemTable
  logWrite : LogWriter
  blockCache : Option LRUCache
  sstFiles : List Bytes

/-- ".sst" -/
def sstExtension : Bytes := [46, 115, 115, 116]

/-- "%06llu.sst" -/
def sstName (id : UInt64) : Bytes := Decimal.encodePadded 6 id.toNat ++ sstExtension

/-- "current.log" -/
def logName : Bytes := [99, 117, 114, 114, 101, 110, 116, 46, 108, 111, 103]

namespace DB

def generateSSTableFilename (db : DB) : Bytes × DB :=
  (db.options.dbPath ++ slash :: sstName db.nextSstId, { db with nextSstId := db.nextSstId + 1 })

def generateLogFilename (options : Options) : Bytes := options.dbPath ++ slash :: logName

/-- The first loop of DoCompaction. The reader has no cache, and its file is closed
before the next one is opened. -/
def mergeLoop (d : Disk) : List Bytes → SortedMap Bytes Bytes → Option (SortedMap Bytes Bytes)
  | [], merged => some merged
  | sstFile :: rest, merged => do
      let (ok, reader) ← SSTableReader.openFile sstFile (d.read sstFile)
      if !ok then mergeLoop d rest merged
      else do
        let (iter, _, _) ← reader.newIterator none
        let merged ← iter.forEach (fun m key value => m.insert key value) merged
        mergeLoop d rest merged

/-- `if (block_cache_) block_cache_->Clear()` -/
def clearCache : Option LRUCache → Option (Option LRUCache)
  | none => some none
  | some cache => cache.clear.map some

variable (codec : VarintCodec)

def doCompaction (io : Io) (d : Disk) (db : DB) : Option (Disk × DB) := do
  if db.sstFiles.length ≤ 1 then return (d, db)
  let merged ← mergeLoop d db.sstFiles .empty
  let (newSstName, db) := db.generateSSTableFilename
  let builder ← merged.entries.foldlM
    (fun (b : SSTableBuilder) p => if p.2.isEmpty then some b else b.add codec p.1 p.2)
    (SSTableBuilder.create io.merged.opened io.merged.room)
  let (_, builder) ← builder.finish codec
  let d := d.create newSstName io.merged builder.file.bytes
  let blockCache ← clearCache db.blockCache
  let d := db.sstFiles.foldl Disk.remove d
  return (d, { db with blockCache := blockCache, sstFiles := [newSstName] })

def maybeScheduleCompaction (io : Io) (d : Disk) (db : DB) : Option (Disk × DB) :=
  if SSTableBuilder.toInt db.sstFiles.length ≥ db.options.maxSstableCount.toInt then db.doCompaction codec io d
  else some (d, db)

def flushMemTable (io : Io) (d : Disk) (db : DB) : Option (Disk × DB) := do
  if db.memTable.isEmpty then return (d, db)
  let (sstName, db) := db.generateSSTableFilename
  let builder ← db.memTable.forEach (fun b key value => b.add codec key value)
    (SSTableBuilder.create io.table.opened io.table.room)
  let (_, builder) ← builder.finish codec
  let d := d.create sstName io.table builder.file.bytes
  let memTable ← db.memTable.clear
  let logFilename := generateLogFilename db.options
  let d := (d.remove logFilename).create logFilename io.log []
  { db with
    memTable := memTable
    logWrite := LogWriter.create io.log.opened io.log.room
    sstFiles := db.sstFiles ++ [sstName] }.maybeScheduleCompaction codec io d

/-- What Put and Delete do first: the WAL record and its Sync. -/
def logBatch (db : DB) (batch : WriteBatch) : Bool × DB :=
  let (ok, logWrite) := db.logWrite.addRecord batch.rep
  if ok then (true, { db with logWrite := logWrite.sync.2 }) else (false, { db with logWrite := logWrite })

/-- `height` is what RandomLevel returns if the MemTable asks it. -/
def put (io : Io) (d : Disk) (db : DB) (key value : Bytes) (height : Height) : Option (Bool × Disk × DB) := do
  let batch ← WriteBatch.create.put codec key value
  match db.logBatch batch with
  | (false, db) => return (false, d, db)
  | (true, db) =>
      let memTable ← db.memTable.put key value height
      let db := { db with memTable := memTable }
      if memTable.size ≥ db.options.writeBufferSize then
        let (d, db) ← db.flushMemTable codec io d
        return (true, d, db)
      else return (true, d, db)

def delete (d : Disk) (db : DB) (key : Bytes) (height : Height) : Option (Bool × Disk × DB) := do
  let batch ← WriteBatch.create.delete codec key
  match db.logBatch batch with
  | (false, db) => return (false, d, db)
  | (true, db) =>
      let memTable ← db.memTable.put key [] height
      return (true, d, { db with memTable := memTable })

/-- The answer to a value that was found: the empty one is a tombstone. -/
def answer (value : Bytes) : Option Bytes := if value.isEmpty then none else some value

/-- The loop of GetFromSSTables over the files it visits. -/
def getLoop (d : Disk) (key : Bytes) : List Bytes → Option LRUCache → Option (Option Bytes × Option LRUCache)
  | [], cache => some (none, cache)
  | sstFile :: rest, cache => do
      let (ok, reader) ← SSTableReader.openFile sstFile (d.read sstFile)
      if !ok then getLoop d key rest cache
      else
        let (found, _, cache) ← reader.get cache key
        match found with
        | some value => return (answer value, cache)
        | none => getLoop d key rest cache

/-- The index starts at the size as an int, less 1, and goes down to 0. -/
def getFromSSTables (d : Disk) (db : DB) (key : Bytes) : Option (Option Bytes × DB) := do
  let visited := (db.sstFiles.take (SSTableBuilder.toInt db.sstFiles.length).toNat).reverse
  let (found, blockCache) ← getLoop d key visited db.blockCache
  return (found, { db with blockCache := blockCache })

/-- The value, on the answer true. -/
def get (d : Disk) (db : DB) (key : Bytes) : Option (Option Bytes × DB) := do
  match ← db.memTable.get key with
  | some value => return (answer value, db)
  | none => db.getFromSSTables d key

/-- MemTableInserter. `heights` are what RandomLevel returns one after the other. -/
def memTableInserter (heights : Nat → Height) : Handler (MemTable × Nat) where
  put s key value := (s.1.put key value (heights s.2)).map (fun m => (m, s.2 + 1))
  delete s key := (s.1.put key [] (heights s.2)).map (fun m => (m, s.2 + 1))

/-- The while loop of Recover. A record whose batch is rejected is only reported. -/
def recoverLoop {S : Type} (handler : Handler S) : Nat → LogReader → S → Option S
  | 0, _, _ => none
  | fuel + 1, reader, s => do
      let (record, reader) ← reader.readRecord
      match record with
      | none => return s
      | some record =>
          let (_, s) ← WriteBatch.iterate ⟨record⟩ handler s
          recoverLoop handler fuel reader s

def recover {S : Type} (handler : Handler S) (log : Option Bytes) (s : S) : Option S :=
  match log with
  | none => some s
  | some bytes => recoverLoop handler (bytes.length + 1) (LogReader.ofFile (some bytes)) s

def isSpace (c : UInt8) : Bool := c == 32 || (9 ≤ c && c ≤ 13)

def isDigit (c : UInt8) : Bool := 48 ≤ c && c ≤ 57

/-- std::stoll, `none` when it throws. -/
def stoll (s : Bytes) : Option Int :=
  let s := s.dropWhile isSpace
  let negative := s.head? == some 45
  let s := if negative || s.head? == some 43 then s.tail else s
  let digits := s.takeWhile isDigit
  let n : Int := if negative then -(Decimal.decode digits : Int) else Decimal.decode digits
  if digits = [] ∨ n < -2 ^ 63 ∨ 2 ^ 63 ≤ n then none else some n

/-- `extension() == ".sst"`: a name that starts with its only dot has no extension. -/
def hasSstExtension (name : Bytes) : Bool := sstExtension.length < name.length && sstExtension.isSuffixOf name

/-- stem() of a name with this extension. -/
def stem (name : Bytes) : Bytes := name.take (name.length - sstExtension.length)

/-- next_sst_id_ once a file has been looked at. -/
def nextIdAfter (next : UInt64) (f : Bytes) : UInt64 :=
  match stoll (stem (fileName f)) with
  | some n =>
      let id := UInt64.ofInt n
      if id ≥ next then id + 1 else next
  | none => next

def loadSSTableList (options : Options) (d : Disk) : List Bytes × UInt64 :=
  let found := ((d.entries.map Prod.fst).filter hasSstExtension).map (joinPath options.dbPath)
  let sstFiles := found.mergeSort (fun a b => decide (a ≤ b))
  (sstFiles, sstFiles.foldl nextIdAfter 1)

/-- The constructor. -/
def create (io : Io) (heights : Nat → Height) (options : Options) (d : Disk) : Option (Disk × DB) := do
  let (sstFiles, nextSstId) := loadSSTableList options d
  let logFilename := generateLogFilename options
  let (memTable, _) ← recover (memTableInserter heights) (d.read logFilename) (MemTable.create, 0)
  let d := d.create logFilename io.log []
  return (d, {
    options := options
    nextSstId := nextSstId
    memTable := memTable
    logWrite := LogWriter.create io.log.opened io.log.room
    blockCache := some (LRUCache.create options.blockCacheSize)
    sstFiles := sstFiles })

/-- The log keeps these bytes. A log that was never opened has none to keep. -/
def leave (d : Disk) (db : DB) (bytes : Bytes) : Disk :=
  if bytes.isEmpty then d else d.store (generateLogFilename db.options) bytes

/-- The directory behind the destructor. -/
def close (d : Disk) (db : DB) : Disk := leave d db db.logWrite.close

/-- The directory behind a crash: only what was flushed is in the log. -/
def crash (d : Disk) (db : DB) : Disk := leave d db db.logWrite.file.durable

end DB

theorem fileName_append {dir name : Bytes} (h : slash ∉ name) : fileName (dir ++ slash :: name) = name := by
  have hall : ∀ c ∈ name.reverse, (c != slash) = true := by
    intro c hc
    rw [bne_iff_ne]
    rintro rfl
    exact h (List.mem_reverse.mp hc)
  rw [fileName, List.reverse_append, List.reverse_cons, List.append_assoc, List.takeWhile_append_of_pos hall,
    List.singleton_append, List.takeWhile_cons_of_neg (by simp), List.append_nil, List.reverse_reverse]

theorem slash_notMem_sstName (id : UInt64) : slash ∉ sstName id := by
  intro h
  rcases List.mem_append.mp h with h | h
  · have := Decimal.mem_encodePadded h
    simp [slash] at this
  · revert h
    decide

theorem sstName_inj {a b : UInt64} (h : sstName a = sstName b) : a = b :=
  UInt64.toNat_inj.mp (Decimal.encodePadded_inj (List.append_cancel_right h))

theorem sstName_ne_logName (id : UInt64) : sstName id ≠ logName := by
  intro h
  have hlast := congrArg List.getLast? h
  rw [sstName, List.getLast?_append_of_ne_nil _ (by decide)] at hlast
  revert hlast
  decide

theorem fileName_log (options : Options) : fileName (DB.generateLogFilename options) = logName :=
  fileName_append (by decide)

namespace Disk

variable (d : Disk)

theorem find_store (path bytes name : Bytes) :
    (d.store path bytes).find name = if name = fileName path then some bytes else d.find name := by
  rw [store, SortedMap.find_insert]

theorem find_remove (path name : Bytes) :
    (d.remove path).find name = if name = fileName path then none else d.find name := by
  rw [remove, SortedMap.find_erase]

theorem find_removes (paths : List Bytes) (name : Bytes) :
    (paths.foldl remove d).find name = if ∃ q ∈ paths, name = fileName q then none else d.find name := by
  induction paths generalizing d with
  | nil => rw [if_neg (by simp)]; rfl
  | cons q paths ih =>
      rw [List.foldl_cons, ih, find_remove]
      by_cases hr : ∃ q ∈ paths, name = fileName q
      · obtain ⟨p, hp, he⟩ := hr
        rw [if_pos ⟨p, hp, he⟩, if_pos ⟨p, List.mem_cons_of_mem _ hp, he⟩]
      · by_cases hq : name = fileName q
        · rw [if_neg hr, if_pos hq, if_pos ⟨q, List.mem_cons_self, hq⟩]
        · rw [if_neg hr, if_neg hq, if_neg]
          rintro ⟨p, hp, he⟩
          rcases List.mem_cons.mp hp with rfl | hp
          · exact hq he
          · exact hr ⟨p, hp, he⟩

theorem read_store (path bytes p : Bytes) :
    (d.store path bytes).read p = if fileName p = fileName path then some bytes else d.read p := find_store ..

theorem read_remove (path p : Bytes) :
    (d.remove path).read p = if fileName p = fileName path then none else d.read p := find_remove ..

end Disk

/-- The names of `n` files whose numbers start with `first`. -/
def sstNames (first : UInt64) (n : Nat) : List Bytes := (List.range n).map (fun i => sstName (first + UInt64.ofNat i))

theorem sstNames_succ (first : UInt64) (n : Nat) :
    sstNames first (n + 1) = sstNames first n ++ [sstName (first + UInt64.ofNat n)] := by
  rw [sstNames, List.range_succ, List.map_append]
  rfl

theorem nodup_sstNames (first : UInt64) {n : Nat} (h : n < 2 ^ 64) : (sstNames first n).Nodup := by
  refine List.Nodup.map_on ?_ List.nodup_range
  intro i hi j hj he
  have hij := (UInt64.add_right_inj first).mp (sstName_inj he)
  have hi' := List.mem_range.mp hi
  have hj' := List.mem_range.mp hj
  have hnat := congrArg UInt64.toNat hij
  rwa [UInt64.toNat_ofNat', UInt64.toNat_ofNat', Nat.mod_eq_of_lt (by omega), Nat.mod_eq_of_lt (by omega)] at hnat

end MiniStorage.Engine
