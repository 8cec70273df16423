import MiniStorage.Engine.Recovery

namespace MiniStorage.Engine

namespace DB

/-- What DoCompaction reads of a file: nothing where Open fails, and else what its good blocks have. -/
def readTable (path : Bytes) (file : Option Bytes) : Option (SortedMap Bytes Bytes) := do
  let (ok, reader) ← SSTableReader.openFile path file
  if !ok then return .empty
  let (iter, _, _) ← reader.newIterator none
  iter.forEach (fun m key value => m.insert key value) .empty

def readTables (d : Disk) (paths : List Bytes) : Option (List (SortedMap Bytes Bytes)) :=
  paths.mapM fun path => readTable path (d.read path)

end DB

theorem mergeLoop_cons (d : Disk) (path : Bytes) (rest : List Bytes) (merged : SortedMap Bytes Bytes) :
    DB.mergeLoop d (path :: rest) merged = (DB.readTable path (d.read path)).bind fun g =>
      DB.mergeLoop d rest (Generations.insertAll merged g.entries) := by
  rw [DB.mergeLoop, DB.readTable]
  cases SSTableReader.openFile path (d.read path) with
  | none => rfl
  | some r =>
      obtain ⟨ok, reader⟩ := r
      cases ok with
      | false => rfl
      | true =>
          simp only [Option.bind_eq_bind, Option.bind_some, Bool.not_true, Bool.false_eq_true, if_false]
          cases reader.newIterator none with
          | none => rfl
          | some r =>
              simp only [Option.bind_some, SSTableIterator.forEach_eq]
              show DB.mergeLoop d rest (Generations.insertAll merged r.1.entries) =
                DB.mergeLoop d rest (Generations.insertAll merged (Generations.insertAll .empty r.1.entries).entries)
              rw [Generations.insertAll_collected]

theorem mergeLoop_eq_merge (d : Disk) (paths : List Bytes) :
    DB.mergeLoop d paths .empty = (DB.readTables d paths).map Generations.merge := by
  have hloop (merged : SortedMap Bytes Bytes) : DB.mergeLoop d paths merged = (DB.readTables d paths).map
      (List.foldl (fun m g => Generations.insertAll m g.entries) merged) := by
    induction paths generalizing merged with
    | nil => rfl
    | cons path paths ih =>
        rw [mergeLoop_cons, DB.readTables, List.mapM_cons]
        cases DB.readTable path (d.read path) with
        | none => rfl
        | some g =>
            simp only [Option.bind_eq_bind, Option.bind_some, ih, DB.readTables, Option.map_bind]
            rw [Option.map_eq_bind]
            rfl
  exact hloop .empty

/-- The calls that write SSTables. -/
inductive Maintenance where
  | flushMemTable
  | compaction
deriving DecidableEq, Repr

/-- All bytes of the table of this map get into its file. -/
def Whole (codec : VarintCodec) (io : Outcome) (kvs : SortedMap Bytes Bytes) : Prop :=
  ∃ file, SSTableBuilder.build codec kvs.entries = some file ∧ io.Complete file

/-- The files of a merge, oldest first: what they were written with, and what can be read of them. -/
structure Merge where
  held : List (SortedMap Bytes Bytes)
  read : List (SortedMap Bytes Bytes)

/-- The map for the new file. -/
def Merge.written (g : Merge) : SortedMap Bytes Bytes := Generations.live isTombstone (Generations.merge g.read)

variable (codec : VarintCodec) (io : Io) (d : Disk) (db : DB) (m : SortedMap Bytes Bytes) (tables : List Table)

namespace DB

/-- The directory with the table of the MemTable. -/
def withTable : Disk :=
  match SSTableBuilder.build codec m.entries with
  | some file => d.create db.nextPath io.table (io.table.taken file)
  | none => d

/-- The merge that a call makes. A flush makes one with its own table as the newest. -/
def mergeOf : Maintenance → Option Merge
  | .compaction =>
      if tables.length ≤ 1 then none
      else some ⟨tables.map Table.kvs, (readTables d (tables.map Table.name)).getD []⟩
  | .flushMemTable =>
      if m.entries.isEmpty ∨ tables = [] ∨
          SSTableBuilder.toInt (tables.length + 1) < db.options.maxSstableCount.toInt then none
      else some ⟨tables.map Table.kvs ++ [m],
        (readTables (db.withTable codec io d m) (tables.map Table.name ++ [db.nextPath])).getD []⟩

/-- A new table was not written completely, or an old one was not read completely. -/
def MaintenanceFailed (c : Maintenance) : Prop :=
  (c = .flushMemTable ∧ m.entries ≠ [] ∧ ¬ Whole codec io.table m) ∨
    ∃ g, db.mergeOf codec io d m tables c = some g ∧ (¬ Whole codec io.merged g.written ∨ g.read ≠ g.held)

/-- The path of the merged file. A flush has used one number before. -/
def mergedPath : Maintenance → Bytes
  | .compaction => db.nextPath
  | .flushMemTable => { db with nextSstId := db.nextSstId + 1 }.nextPath

/-- The new tables of a call, by their paths. -/
def newTables (c : Maintenance) : List (Bytes × SortedMap Bytes Bytes) :=
  (if c = .flushMemTable then [(db.nextPath, m)] else []) ++
    ((db.mergeOf codec io d m tables c).map fun g => (db.mergedPath c, g.written)).toList

/-- A version is still there behind a call: in the MemTable and the log, in an old file that is listed and
as it was, or in a new file that is listed and has all its bytes. -/
def Kept (c : Maintenance) (d' : Disk) (db' : DB) (key v : Bytes) : Prop :=
  (db'.memTable.get key = some (some v) ∧ db'.logWrite = db.logWrite ∧ d'.find logName = d.find logName) ∨
    (∃ t ∈ tables, t.name ∈ db'.sstFiles ∧ d'.read t.name = d.read t.name ∧ t.kvs.find key = some v) ∨
      ∃ p ∈ db.newTables codec io d m tables c, p.1 ∈ db'.sstFiles ∧
        (∃ file, SSTableBuilder.build codec p.2.entries = some file ∧ d'.read p.1 = some file) ∧ p.2.find key = some v

end DB

/-- The state that a call meets: the files are what the list says, and the next two numbers are free. -/
structure Listed : Prop where
  top : db.memTable.Maps m
  paths : db.sstFiles = tables.map Table.name
  numbered : ∀ t ∈ tables, ∃ id, fileName t.name = sstName id
  free : ∀ id, id = db.nextSstId ∨ id = db.nextSstId + 1 → d.find (sstName id) = none ∧
    ∀ t ∈ tables, fileName t.name ≠ sstName id

variable {codec io d db m tables}

namespace DB

variable {c : Maintenance} {g : Merge}

end DB

namespace Listed

variable {d' : Disk} {db' : DB} {c : Maintenance}

theorem names (h : Listed d db m tables) {id : UInt64} (hid : id = db.nextSstId ∨ id = db.nextSstId + 1) :
    ∀ q ∈ db.sstFiles, ∃ i, fileName q = sstName i ∧ i ≠ id := by
  intro q hq
  rw [h.paths] at hq
  obtain ⟨t, ht, rfl⟩ := List.mem_map.mp hq
  obtain ⟨i, hi⟩ := h.numbered t ht
  refine ⟨i, hi, ?_⟩
  rintro rfl
  exact (h.free i hid).2 t ht hi

end Listed

theorem Represents.listed {s : Session} (h : Represents codec s tables d db) : Listed d db s.gens.top tables := by
  obtain ⟨first, hnames, hnext⟩ := h.names
  have hfew := h.few
  have hfresh : ∀ id, id = db.nextSstId ∨ id = db.nextSstId + 1 → ∀ t ∈ tables, fileName t.name ≠ sstName id := by
    have hnodup := nodup_sstNames first (n := tables.length + 2) (by omega)
    rw [sstNames_succ, sstNames_succ, ← hnames, List.append_assoc, List.nodup_append] at hnodup
    intro id hid t ht
    apply hnodup.2.2 _ (List.mem_map_of_mem (f := fun t => fileName t.name) ht)
    rcases hid with rfl | rfl
    · simp [hnext]
    · simp [hnext, UInt64.ofNat_add, UInt64.add_assoc]
  refine ⟨h.top, h.paths, fun t ht => h.fileName_mem ht, ?_⟩
  intro id hid
  refine ⟨?_, hfresh id hid⟩
  by_contra hfind
  rcases h.files _ hfind with hlog | ⟨t, ht, he⟩
  · exact sstName_ne_logName id hlog
  · exact hfresh id hid t ht he.symm

theorem readTable_intact {t : Table} (h : Intact codec d t) : DB.readTable t.name (d.read t.name) = some t.kvs := by
  obtain ⟨r, hopen, hserves⟩ := h.openFile
  have hnone : Cached codec [t] none := trivial
  have hone : Distinct [t] := by
    intro u hu w hw _
    rw [List.mem_singleton.mp hu, List.mem_singleton.mp hw]
  obtain ⟨r', cache', hiter, -⟩ := hserves.newIterator (List.mem_singleton_self t) hone hnone
  rw [DB.readTable, hopen]
  simp only [Option.bind_eq_bind, Option.bind_some, Bool.not_true, Bool.false_eq_true, if_false, hiter,
    SSTableIterator.forEach_eq]
  congr 1
  apply SortedMap.ext_find
  intro key
  exact (Generations.find_insertAll .empty t.ascending key).trans Option.or_none

theorem readTables_intact (hi : ∀ t ∈ tables, Intact codec d t) :
    DB.readTables d (tables.map Table.name) = some (tables.map Table.kvs) := by
  induction tables with
  | nil => rfl
  | cons t ts ih =>
      obtain ⟨ht, hts⟩ := List.forall_mem_cons.mp hi
      have hih := ih hts
      rw [DB.readTables] at hih
      rw [DB.readTables, List.map_cons, List.mapM_cons, readTable_intact ht, hih]
      rfl

/-- Where every old file is whole, a merge by itself fails only at the new one. -/
theorem compaction_failed_iff (hi : ∀ t ∈ tables, Intact codec d t) :
    db.MaintenanceFailed codec io d m tables .compaction ↔ 1 < tables.length ∧
      ¬ Whole codec io.merged (Generations.live isTombstone (Generations.merge (tables.map Table.kvs))) := by
  rw [DB.MaintenanceFailed, DB.mergeOf, readTables_intact hi, Option.getD_some]
  by_cases hn : tables.length ≤ 1
  · rw [if_pos hn]
    simp [hn]
  · rw [if_neg hn]
    simp [not_le.mp hn, Merge.written]

end MiniStorage.Engine
