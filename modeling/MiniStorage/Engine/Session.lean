import MiniStorage.Engine.TableFiles
import MiniStorage.Generations

namespace MiniStorage.Engine

/-- What an open DB stands for: the versions in its MemTable and its files, and the
operations in current.log. -/
structure Session where
  gens : Generations Bytes Bytes
  log : List Mutation

/-- The empty value is the tombstone. -/
def isTombstone (value : Bytes) : Bool := value.isEmpty

/-- The records of current.log. -/
def logBytes (codec : VarintCodec) (log : List Mutation) : Bytes :=
  log.flatMap (fun m => physicalRecord .full (batchHeader ++ m.record codec))

/-- The code's state of such a session, with these files. -/
structure Represents (codec : VarintCodec) (s : Session) (tables : List Table) (d : Disk) (db : DB) : Prop where
  top : db.memTable.Maps s.gens.top
  older : s.gens.older = tables.map Table.kvs
  paths : db.sstFiles = tables.map Table.name
  names : ∃ first : UInt64, tables.map (fun t => fileName t.name) = sstNames first tables.length ∧
    db.nextSstId = first + UInt64.ofNat tables.length
  few : tables.length < 2 ^ 31
  stored : ∀ t ∈ tables, ∃ bytes f, d.read t.name = some bytes ∧ IsTable codec bytes t.blocks f ∧ bytes.length < 2 ^ 32
  cached : Cached codec tables db.blockCache
  writer : db.logWrite.ok = true ∧ db.logWrite.file.good = true ∧ db.logWrite.file.room = none
  synced : db.logWrite.file.flushed = db.logWrite.file.bytes.length
  logged : db.logWrite.file.bytes = logBytes codec s.log
  encodes : ∀ m ∈ s.log, m.Encodes codec
  logFile : d.find logName = some []
  files : ∀ name, d.find name ≠ none → name = logName ∨ ∃ t ∈ tables, name = fileName t.name

variable {codec : VarintCodec} {s : Session} {tables : List Table} {d : Disk} {db : DB}

/-- The whole file of a table. -/
def Intact (codec : VarintCodec) (d : Disk) (t : Table) : Prop :=
  ∃ bytes f, d.read t.name = some bytes ∧ IsTable codec bytes t.blocks f ∧ bytes.length < 2 ^ 32

theorem Intact.openFile {t : Table} (h : Intact codec d t) :
    ∃ r, SSTableReader.openFile t.name (d.read t.name) = some (true, r) ∧ Serves codec r t := by
  obtain ⟨bytes, f, hread, htable, hlen⟩ := h
  rw [hread]
  exact openFile_table htable hlen

theorem mergeLoop_eq (hu : Distinct tables) (hi : ∀ t ∈ tables, Intact codec d t) {ts : List Table} (hts : ts ⊆ tables)
    (merged : SortedMap Bytes Bytes) :
    DB.mergeLoop d (ts.map Table.name) merged =
      some ((ts.map Table.kvs).foldl (fun m g => Generations.insertAll m g.entries) merged) := by
  induction ts generalizing merged with
  | nil => rfl
  | cons t ts ih =>
      have ht := hts List.mem_cons_self
      obtain ⟨r, hopen, hserves⟩ := (hi t ht).openFile
      have hnone : Cached codec tables none := trivial
      obtain ⟨r', cache', hiter, -⟩ := hserves.newIterator ht hu hnone
      rw [List.map_cons, DB.mergeLoop, hopen]
      simp only [Option.bind_eq_bind, Option.bind_some, Bool.not_true, Bool.false_eq_true, if_false, hiter,
        SSTableIterator.forEach_eq]
      exact ih (fun u hu => hts (List.mem_cons_of_mem _ hu)) _

theorem getLoop_eq (hu : Distinct tables) (hi : ∀ t ∈ tables, Intact codec d t) (key : Bytes) {ts : List Table}
    (hts : ts ⊆ tables) {cache : Option LRUCache} (hc : Cached codec tables cache) :
    ∃ cache', DB.getLoop d key (ts.map Table.name) cache =
        some ((Generations.lookup (ts.map Table.kvs) key).filter (fun v => !isTombstone v), cache') ∧
      Cached codec tables cache' := by
  induction ts generalizing cache with
  | nil => exact ⟨cache, rfl, hc⟩
  | cons t ts ih =>
      have ht := hts List.mem_cons_self
      obtain ⟨r, hopen, hserves⟩ := (hi t ht).openFile
      obtain ⟨r', cache', hget, -, hc'⟩ := hserves.get ht hu hc key
      rw [List.map_cons, List.map_cons, DB.getLoop, hopen, Generations.lookup]
      simp only [Option.bind_eq_bind, Option.bind_some, Bool.not_true, Bool.false_eq_true, if_false, hget]
      cases t.kvs.find key with
      | none => exact ih (fun u hu => hts (List.mem_cons_of_mem _ hu)) hc'
      | some v =>
          refine ⟨cache', ?_, hc'⟩
          cases v <;> rfl

theorem visited_eq (hp : db.sstFiles = tables.map Table.name) (hfew : tables.length < 2 ^ 31) :
    (db.sstFiles.take (SSTableBuilder.toInt db.sstFiles.length).toNat).reverse = tables.reverse.map Table.name := by
  rw [hp, List.length_map, SSTableBuilder.toInt_of_lt hfew, Int.toNat_natCast, List.take_of_length_le (by simp),
    List.map_reverse]

theorem getFromSSTables_eq (hp : db.sstFiles = tables.map Table.name) (hfew : tables.length < 2 ^ 31)
    (hu : Distinct tables) (hi : ∀ t ∈ tables, Intact codec d t) (hc : Cached codec tables db.blockCache)
    (key : Bytes) :
    ∃ cache, db.getFromSSTables d key =
        some ((Generations.lookup (tables.map Table.kvs).reverse key).filter (fun v => !isTombstone v),
          { db with blockCache := cache }) ∧ Cached codec tables cache := by
  obtain ⟨cache, hloop, hc'⟩ := getLoop_eq hu hi key (fun t ht => List.mem_reverse.mp ht) hc
  refine ⟨cache, ?_, hc'⟩
  rw [DB.getFromSSTables, visited_eq hp hfew, hloop, List.map_reverse]
  rfl

theorem Represents.nodup (h : Represents codec s tables d db) : (tables.map (fun t => fileName t.name)).Nodup := by
  obtain ⟨first, hn, -⟩ := h.names
  rw [hn]
  have hfew := h.few
  exact nodup_sstNames first (by omega)

theorem Represents.distinct (h : Represents codec s tables d db) : Distinct tables := by
  intro t ht u hu he
  exact List.inj_on_of_nodup_map h.nodup ht hu (congrArg fileName he)

theorem Represents.fileName_mem (h : Represents codec s tables d db) {t : Table} (ht : t ∈ tables) :
    ∃ id, fileName t.name = sstName id := by
  obtain ⟨first, hn, -⟩ := h.names
  have hm : fileName t.name ∈ sstNames first tables.length := by
    rw [← hn]
    exact List.mem_map_of_mem (f := fun t => fileName t.name) ht
  obtain ⟨i, -, hi⟩ := List.mem_map.mp hm
  exact ⟨_, hi.symm⟩

theorem Represents.fresh (h : Represents codec s tables d db) {t : Table} (ht : t ∈ tables) :
    fileName t.name ≠ sstName db.nextSstId := by
  obtain ⟨first, hn, hnext⟩ := h.names
  have hfew := h.few
  have hd := nodup_sstNames first (n := tables.length + 1) (by omega)
  rw [sstNames_succ, ← hn, List.nodup_append] at hd
  rw [hnext]
  exact hd.2.2 _ (List.mem_map_of_mem (f := fun t => fileName t.name) ht) _ (List.mem_singleton_self _)

theorem Represents.mergeLoop (h : Represents codec s tables d db) (merged : SortedMap Bytes Bytes) :
    DB.mergeLoop d (tables.map Table.name) merged =
      some ((tables.map Table.kvs).foldl (fun m g => Generations.insertAll m g.entries) merged) :=
  mergeLoop_eq h.distinct h.stored (fun _ ht => ht) merged

namespace Session

/-- What the calls do to a session: Get answers from it. -/
def view (s : Session) (key : Bytes) : Option Bytes := s.gens.view isTombstone key

def write (s : Session) (m : Mutation) : Session := ⟨s.gens.write m.key m.value, s.log ++ [m]⟩

def doCompaction (s : Session) : Session :=
  if s.gens.older.length ≤ 1 then s else { s with gens := s.gens.compact isTombstone }

def maybeScheduleCompaction (options : Options) (s : Session) : Session :=
  if (s.gens.older.length : Int) ≥ options.maxSstableCount.toInt then s.doCompaction else s

def flushMemTable (options : Options) (s : Session) : Session :=
  if s.gens.top.entries.isEmpty then s else maybeScheduleCompaction options ⟨s.gens.flush, []⟩

/-- The bytes of keys and values. -/
def sizeOf (m : SortedMap Bytes Bytes) : Nat := (m.entries.map (fun p => p.1.length + p.2.length)).sum

def put (options : Options) (s : Session) (key value : Bytes) : Session :=
  if options.writeBufferSize ≤ sizeOf (s.write (.put key value)).gens.top then
    flushMemTable options (s.write (.put key value))
  else s.write (.put key value)

/-- The maps that DoCompaction writes to a file. -/
def compactionTables (s : Session) : List (SortedMap Bytes Bytes) :=
  if s.gens.older.length ≤ 1 then [] else [Generations.live isTombstone (Generations.merge s.gens.older)]

def scheduledTables (options : Options) (s : Session) : List (SortedMap Bytes Bytes) :=
  if (s.gens.older.length : Int) ≥ options.maxSstableCount.toInt then s.compactionTables else []

/-- The maps that FlushMemTable writes to a file, those of the compaction behind it included. -/
def flushTables (options : Options) (s : Session) : List (SortedMap Bytes Bytes) :=
  if s.gens.top.entries.isEmpty then [] else s.gens.top :: scheduledTables options ⟨s.gens.flush, []⟩

def putTables (options : Options) (s : Session) (key value : Bytes) : List (SortedMap Bytes Bytes) :=
  if options.writeBufferSize ≤ sizeOf (s.write (.put key value)).gens.top then
    flushTables options (s.write (.put key value))
  else []

end Session

theorem answer_eq (value : Bytes) : DB.answer value = (some value).filter (fun v => !isTombstone v) := by
  cases value <;> rfl

theorem Represents.of_cache (h : Represents codec s tables d db) {cache : Option LRUCache}
    (hc : Cached codec tables cache) :
    Represents codec s tables d { db with blockCache := cache } :=
  ⟨h.top, h.older, h.paths, h.names, h.few, h.stored, hc, h.writer, h.synced, h.logged, h.encodes, h.logFile, h.files⟩

theorem Represents.get (h : Represents codec s tables d db) (key : Bytes) :
    ∃ cache, db.get d key = some (s.view key, { db with blockCache := cache }) ∧ Cached codec tables cache := by
  rw [DB.get, h.top.get]
  simp only [Option.bind_eq_bind, Option.bind_some, Session.view, Generations.view]
  cases s.gens.top.find key with
  | some value =>
      dsimp only
      rw [answer_eq]
      exact ⟨db.blockCache, rfl, h.cached⟩
  | none =>
      obtain ⟨cache, hrun, hc⟩ := getFromSSTables_eq h.paths h.few h.distinct h.stored h.cached key
      refine ⟨cache, ?_, hc⟩
      dsimp only
      rw [hrun, h.older, Option.none_or]

theorem foldlM_live (merged : SortedMap Bytes Bytes) (b : SSTableBuilder) :
    merged.entries.foldlM (fun (b : SSTableBuilder) p => if p.2.isEmpty then some b else b.add codec p.1 p.2) b =
      b.addAll codec (Generations.live isTombstone merged).entries := by
  simp only [Generations.live, SSTableBuilder.addAll]
  generalize merged.entries = ps
  induction ps generalizing b with
  | nil => rfl
  | cons p ps ih =>
      rw [List.foldlM_cons]
      by_cases hp : p.2.isEmpty = true
      · rw [List.filter_cons_of_neg (by simpa [isTombstone] using hp), if_pos hp]
        exact ih b
      · rw [List.filter_cons_of_pos (by simpa [isTombstone] using hp), if_neg hp, List.foldlM_cons]
        congr 1
        funext b'
        exact ih b'

theorem Stores.clear {P : Bytes → BolckData → Prop} {cache : Option LRUCache} (h : Stores P cache)
    (Q : Bytes → BolckData → Prop) : ∃ cache', DB.clearCache cache = some cache' ∧ Stores Q cache' := by
  cases cache with
  | none => exact ⟨none, rfl, trivial⟩
  | some c =>
      obtain ⟨slots, hs, -⟩ := h
      obtain ⟨c', hclear, hs'⟩ := hs.clear
      exact ⟨some c', by simp [DB.clearCache, hclear], [], hs', by simp⟩

theorem Cached.clear {cache : Option LRUCache} (h : Cached codec tables cache) :
    ∃ cache', DB.clearCache cache = some cache' ∧ Cached codec [] cache' := by
  simp only [cached_iff] at h ⊢
  exact h.clear _

theorem Cached.mono {cache : Option LRUCache} {tables' : List Table} (h : Cached codec tables cache)
    (hsub : tables ⊆ tables') :
    Cached codec tables' cache := by
  rw [cached_iff] at h ⊢
  refine h.mono ?_
  rintro key data ⟨t, ht, hrest⟩
  exact ⟨t, hsub ht, hrest⟩

/-- The path of the next file. -/
def DB.nextPath (db : DB) : Bytes := db.options.dbPath ++ slash :: sstName db.nextSstId

theorem fileName_nextPath (db : DB) : fileName db.nextPath = sstName db.nextSstId :=
  fileName_append (slash_notMem_sstName _)

theorem doCompaction_eq (io : Io) {merged : SortedMap Bytes Bytes} {cache : Option LRUCache}
    (hn : ¬ db.sstFiles.length ≤ 1) (hmerge : DB.mergeLoop d db.sstFiles .empty = some merged)
    (hclear : DB.clearCache db.blockCache = some cache) :
    db.doCompaction codec io d =
      (SSTableBuilder.build codec (Generations.live isTombstone merged).entries).map fun file =>
      (db.sstFiles.foldl Disk.remove (d.create db.nextPath io.merged (io.merged.taken file)),
        { db with nextSstId := db.nextSstId + 1, blockCache := cache, sstFiles := [db.nextPath] }) := by
  simp only [DB.doCompaction, hn, if_false, hmerge, Option.bind_eq_bind, Option.bind_some, DB.generateSSTableFilename,
    foldlM_live, hclear]
  rw [Option.map_eq_bind]
  exact SSTableBuilder.build_bind io.merged _ fun bytes =>
    some (db.sstFiles.foldl Disk.remove (d.create db.nextPath io.merged bytes),
    { db with nextSstId := db.nextSstId + 1, blockCache := cache, sstFiles := [db.nextPath] })

/-- All that DoCompaction can do. -/
theorem doCompaction_cases {io : Io} {d' : Disk} {db' : DB} (h : db.doCompaction codec io d = some (d', db')) :
    (db.sstFiles.length ≤ 1 ∧ d' = d ∧ db' = db) ∨
      (1 < db.sstFiles.length ∧ ∃ merged file cache, DB.mergeLoop d db.sstFiles .empty = some merged ∧
        SSTableBuilder.build codec (Generations.live isTombstone merged).entries = some file ∧
        d' = db.sstFiles.foldl Disk.remove (d.create db.nextPath io.merged (io.merged.taken file)) ∧
        db' = { db with nextSstId := db.nextSstId + 1, blockCache := cache, sstFiles := [db.nextPath] }) := by
  by_cases hn : db.sstFiles.length ≤ 1
  · rw [DB.doCompaction, if_pos hn] at h
    obtain ⟨rfl, rfl⟩ := Prod.mk.inj (Option.some.inj h)
    exact .inl ⟨hn, rfl, rfl⟩
  · cases hmerge : DB.mergeLoop d db.sstFiles .empty with
    | none => simp [DB.doCompaction, hn, hmerge] at h
    | some merged =>
        cases hclear : DB.clearCache db.blockCache with
        | none => simp [DB.doCompaction, hn, hmerge, DB.generateSSTableFilename, hclear] at h
        | some cache =>
            rw [doCompaction_eq io hn hmerge hclear] at h
            obtain ⟨file, hfile, he⟩ := Option.map_eq_some_iff.mp h
            obtain ⟨rfl, rfl⟩ := Prod.mk.inj he
            exact .inr ⟨not_le.mp hn, merged, file, cache, rfl, hfile, rfl, rfl⟩

theorem Represents.doCompaction_eq (h : Represents codec s tables d db) (hn : ¬ tables.length ≤ 1) :
    ∃ cache, Cached codec [] cache ∧ db.doCompaction codec {} d =
      (SSTableBuilder.build codec
          (Generations.live isTombstone (Generations.merge s.gens.older)).entries).map fun file =>
        (db.sstFiles.foldl Disk.remove (d.store db.nextPath file),
          { db with nextSstId := db.nextSstId + 1, blockCache := cache, sstFiles := [db.nextPath] }) := by
  obtain ⟨cache, hclear, hc⟩ := h.cached.clear
  have hlen : ¬ db.sstFiles.length ≤ 1 := by
    rw [h.paths, List.length_map]
    exact hn
  have hmerge := h.mergeLoop .empty
  rw [← h.paths, ← h.older] at hmerge
  exact ⟨cache, hc, Engine.doCompaction_eq {} hlen hmerge hclear⟩

theorem exists_table {kvs : SortedMap Bytes Bytes} {file : Bytes}
    (hb : SSTableBuilder.build codec kvs.entries = some file) (hshort : file.length < 2 ^ 32) (path : Bytes) :
    ∃ t : Table, t.name = path ∧ t.kvs = kvs ∧ ∀ d : Disk, d.read path = some file → Intact codec d t := by
  obtain ⟨blocks, f, htable, hflat⟩ := SSTableBuilder.build_some hb
  have hasc : Ascending blocks := by
    rw [Ascending, hflat]
    exact kvs.ascending
  exact ⟨⟨path, blocks, hasc⟩, rfl, SortedMap.ext hflat, fun d hd => ⟨file, f, hd, htable, hshort⟩⟩

theorem Represents.nextPath_ne (h : Represents codec s tables d db) {t : Table} (ht : t ∈ tables) :
    fileName t.name ≠ fileName db.nextPath := by
  rw [fileName_nextPath]
  exact h.fresh ht

theorem Represents.compacted (h : Represents codec s tables d db) {file : Bytes} {cache : Option LRUCache}
    (hb : SSTableBuilder.build codec (Generations.live isTombstone (Generations.merge s.gens.older)).entries =
      some file)
    (hshort : file.length < 2 ^ 32) (hc : Cached codec [] cache) :
    ∃ t, Represents codec { s with gens := s.gens.compact isTombstone } [t]
      (db.sstFiles.foldl Disk.remove (d.store db.nextPath file))
      { db with nextSstId := db.nextSstId + 1, blockCache := cache, sstFiles := [db.nextPath] } := by
  obtain ⟨t, hname, hkvs, hstored⟩ := exists_table hb hshort db.nextPath
  have hold : ∀ q ∈ db.sstFiles, ∃ u ∈ tables, q = u.name := by
    intro q hq
    rw [h.paths] at hq
    obtain ⟨u, hu, rfl⟩ := List.mem_map.mp hq
    exact ⟨u, hu, rfl⟩
  have hkeep : ¬ ∃ q ∈ db.sstFiles, fileName db.nextPath = fileName q := by
    rintro ⟨q, hq, he⟩
    obtain ⟨u, hu, rfl⟩ := hold q hq
    exact h.nextPath_ne hu he.symm
  have hlog : ¬ ∃ q ∈ db.sstFiles, logName = fileName q := by
    rintro ⟨q, hq, he⟩
    obtain ⟨u, hu, rfl⟩ := hold q hq
    obtain ⟨id, hid⟩ := h.fileName_mem hu
    exact sstName_ne_logName id (hid.symm.trans he.symm)
  refine ⟨t, h.top, ?_, ?_, ⟨db.nextSstId, ?_, ?_⟩, by simp, ?_, hc.mono (by simp), h.writer, h.synced, h.logged,
    h.encodes, ?_, ?_⟩
  · simp [Generations.compact, hkvs]
  · simp [hname]
  · simp [sstNames, hname, fileName_nextPath]
  · rfl
  · intro u hu
    rw [List.mem_singleton.mp hu]
    apply hstored
    rw [Disk.read, Disk.find_removes, if_neg hkeep, Disk.find_store, if_pos rfl]
  · rw [Disk.find_removes, if_neg hlog, Disk.find_store, if_neg, h.logFile]
    rw [fileName_nextPath]
    exact (sstName_ne_logName _).symm
  · intro name hfind
    by_cases hq : ∃ q ∈ db.sstFiles, name = fileName q
    · rw [Disk.find_removes, if_pos hq] at hfind
      exact absurd rfl hfind
    · rw [Disk.find_removes, if_neg hq, Disk.find_store] at hfind
      by_cases hn : name = fileName db.nextPath
      · exact .inr ⟨t, List.mem_singleton_self _, by rw [hn, hname]⟩
      · rw [if_neg hn] at hfind
        rcases h.files name hfind with hl | ⟨u, hu, hn'⟩
        · exact .inl hl
        · exact absurd ⟨u.name, by rw [h.paths]; exact List.mem_map_of_mem hu, hn'⟩ hq

theorem Represents.flushed (h : Represents codec s tables d db) (hroom : tables.length < 2 ^ 31 - 1) {file : Bytes}
    {memTable : MemTable} (hb : SSTableBuilder.build codec s.gens.top.entries = some file)
    (hshort : file.length < 2 ^ 32) (hmem : memTable.Maps .empty) :
    ∃ t, Represents codec ⟨s.gens.flush, []⟩ (tables ++ [t])
      (((d.store db.nextPath file).remove (DB.generateLogFilename db.options)).store
        (DB.generateLogFilename db.options) [])
      { db with
        nextSstId := db.nextSstId + 1, memTable := memTable, logWrite := LogWriter.create true none,
        sstFiles := db.sstFiles ++ [db.nextPath] } := by
  obtain ⟨t, hname, hkvs, hstored⟩ := exists_table hb hshort db.nextPath
  obtain ⟨first, hnames, hnext⟩ := h.names
  have hne (id : UInt64) : sstName id ≠ fileName (DB.generateLogFilename db.options) := by
    rw [fileName_log]
    exact sstName_ne_logName id
  have hread (p : Bytes) (id : UInt64) (hp : fileName p = sstName id) :
      (((d.store db.nextPath file).remove (DB.generateLogFilename db.options)).store
        (DB.generateLogFilename db.options) []).read p =
      if fileName p = fileName db.nextPath then some file else d.read p := by
    rw [Disk.read_store, if_neg (by rw [hp]; exact hne id), Disk.read_remove, if_neg (by rw [hp]; exact hne id),
      Disk.read_store]
  refine ⟨t, hmem, ?_, ?_, ⟨first, ?_, ?_⟩, ?_, ?_, h.cached.mono (List.subset_append_left _ _), ⟨rfl, rfl, rfl⟩, rfl,
    rfl, by simp, ?_, ?_⟩
  · simp [Generations.flush, h.older, hkvs]
  · simp [h.paths, hname]
  · rw [List.map_append, List.length_append, List.length_singleton, sstNames_succ, hnames, ← hnext, List.map_singleton,
      hname, fileName_nextPath]
  · show db.nextSstId + 1 = _
    rw [hnext, List.length_append, List.length_singleton, UInt64.ofNat_add, ← UInt64.add_assoc]
    rfl
  · rw [List.length_append, List.length_singleton]
    omega
  · intro u hu
    rcases List.mem_append.mp hu with hu | hu
    · obtain ⟨id, hid⟩ := h.fileName_mem hu
      rw [hread u.name id hid, if_neg (h.nextPath_ne hu)]
      exact h.stored u hu
    · rw [List.mem_singleton.mp hu]
      apply hstored
      rw [hread db.nextPath db.nextSstId (fileName_nextPath db), if_pos rfl]
  · rw [Disk.find_store, if_pos (fileName_log _).symm]
  · intro name hfind
    by_cases hl : name = logName
    · exact .inl hl
    · rw [← fileName_log db.options] at hl
      rw [Disk.find_store, if_neg hl, Disk.find_remove, if_neg hl, Disk.find_store] at hfind
      by_cases hn : name = fileName db.nextPath
      · exact .inr ⟨t, by simp, by rw [hn, hname]⟩
      · rw [if_neg hn] at hfind
        rcases h.files name hfind with hl' | ⟨u, hu, hn'⟩
        · exact .inl hl'
        · exact .inr ⟨u, List.mem_append_left _ hu, hn'⟩

/-- A call comes back exactly when the files it writes can be built, and is then in this session. -/
structure Keeps (codec : VarintCodec) (options : Options) (written : List (SortedMap Bytes Bytes)) (s : Session)
    (r : Option (Disk × DB)) : Prop where
  isSome_iff : r.isSome ↔ ∀ m ∈ written, (SSTableBuilder.build codec m.entries).isSome
  represents : ∀ d db, r = some (d, db) → db.options = options ∧ ∃ tables, Represents codec s tables d db

theorem Represents.length_older (h : Represents codec s tables d db) : s.gens.older.length = tables.length := by
  rw [h.older, List.length_map]

theorem Represents.doCompaction (h : Represents codec s tables d db)
    (hshort : ∀ m ∈ s.compactionTables, Short codec m) :
    Keeps codec db.options s.compactionTables s.doCompaction (db.doCompaction codec {} d) := by
  by_cases hn : tables.length ≤ 1
  · have hs : s.gens.older.length ≤ 1 := by
      rw [h.length_older]
      exact hn
    have hdb : db.sstFiles.length ≤ 1 := by
      rw [h.paths, List.length_map]
      exact hn
    have hrun : db.doCompaction codec {} d = some (d, db) := by
      simp only [DB.doCompaction, hdb, if_true]
      rfl
    rw [hrun, Session.compactionTables, Session.doCompaction, if_pos hs, if_pos hs]
    refine ⟨by simp, ?_⟩
    intro d' db' hr
    obtain ⟨rfl, rfl⟩ := Prod.mk.inj (Option.some.inj hr)
    exact ⟨rfl, tables, h⟩
  · have hs : ¬ s.gens.older.length ≤ 1 := by
      rw [h.length_older]
      exact hn
    obtain ⟨cache, hc, hrun⟩ := h.doCompaction_eq hn
    rw [Session.compactionTables, if_neg hs] at hshort ⊢
    rw [hrun, Session.doCompaction, if_neg hs]
    refine ⟨by simp, ?_⟩
    intro d' db' hr
    obtain ⟨file, hb, hr⟩ := Option.map_eq_some_iff.mp hr
    obtain ⟨rfl, rfl⟩ := Prod.mk.inj hr
    obtain ⟨t, ht⟩ := h.compacted hb (hshort _ (List.mem_singleton_self _) file hb) hc
    exact ⟨rfl, [t], ht⟩

theorem Represents.maybeScheduleCompaction (h : Represents codec s tables d db)
    (hshort : ∀ m ∈ s.scheduledTables db.options, Short codec m) :
    Keeps codec db.options (s.scheduledTables db.options) (s.maybeScheduleCompaction db.options)
      (db.maybeScheduleCompaction codec {} d) := by
  have hlen : SSTableBuilder.toInt db.sstFiles.length = s.gens.older.length := by
    rw [h.paths, List.length_map, h.length_older]
    exact SSTableBuilder.toInt_of_lt h.few
  rw [Session.scheduledTables] at hshort ⊢
  rw [DB.maybeScheduleCompaction, hlen, Session.maybeScheduleCompaction]
  by_cases hmax : (s.gens.older.length : Int) ≥ db.options.maxSstableCount.toInt
  · rw [if_pos hmax] at hshort ⊢
    rw [if_pos hmax, if_pos hmax]
    exact h.doCompaction hshort
  · rw [if_neg hmax, if_neg hmax, if_neg hmax]
    refine ⟨by simp, ?_⟩
    intro d' db' hr
    obtain ⟨rfl, rfl⟩ := Prod.mk.inj (Option.some.inj hr)
    exact ⟨rfl, tables, h⟩

theorem flushMemTable_eq (io : Io) {kvs : SortedMap Bytes Bytes} {memTable : MemTable} (htop : db.memTable.Maps kvs)
    (hne : db.memTable.isEmpty = false) (hclear : db.memTable.clear = some memTable) :
    db.flushMemTable codec io d = (SSTableBuilder.build codec kvs.entries).bind fun file =>
      DB.maybeScheduleCompaction codec io
        (((d.create db.nextPath io.table (io.table.taken file)).remove (DB.generateLogFilename db.options)).create
          (DB.generateLogFilename db.options) io.log [])
        { db with
          nextSstId := db.nextSstId + 1, memTable := memTable, logWrite := LogWriter.create io.log.opened io.log.room,
          sstFiles := db.sstFiles ++ [db.nextPath] } := by
  have hadd : db.memTable.forEach (fun b key value => SSTableBuilder.add codec b key value)
      (SSTableBuilder.create io.table.opened io.table.room) =
        (SSTableBuilder.create io.table.opened io.table.room).addAll codec kvs.entries := htop.forEach _ _
  unfold DB.flushMemTable
  -- nothing of what follows the builder is looked into
  generalize DB.maybeScheduleCompaction codec io = schedule
  rw [if_neg (by simp [hne]), ← SSTableBuilder.build_bind io.table kvs.entries fun bytes => schedule
    (((d.create db.nextPath io.table bytes).remove (DB.generateLogFilename db.options)).create
      (DB.generateLogFilename db.options) io.log [])
    { db with
      nextSstId := db.nextSstId + 1, memTable := memTable, logWrite := LogWriter.create io.log.opened io.log.room,
      sstFiles := db.sstFiles ++ [db.nextPath] }]
  show (db.memTable.forEach (fun b key value => SSTableBuilder.add codec b key value)
    (SSTableBuilder.create io.table.opened io.table.room)).bind _ = _
  rw [hadd]
  refine congrArg (Option.bind _) (funext fun b => congrArg (Option.bind _) (funext fun r => ?_))
  show db.memTable.clear.bind _ = _
  rw [hclear, Option.bind_some]
  rfl

theorem Represents.flushMemTable (h : Represents codec s tables d db) (hroom : tables.length < 2 ^ 31 - 1)
    (hshort : ∀ m ∈ s.flushTables db.options, Short codec m) :
    Keeps codec db.options (s.flushTables db.options) (s.flushMemTable db.options) (db.flushMemTable codec {} d) := by
  rw [Session.flushTables] at hshort ⊢
  rw [Session.flushMemTable]
  by_cases hempty : s.gens.top.entries.isEmpty = true
  · have hrun : db.flushMemTable codec {} d = some (d, db) := by
      simp only [DB.flushMemTable, h.top.isEmpty, hempty, if_true]
      rfl
    rw [hrun, if_pos hempty, if_pos hempty]
    refine ⟨by simp, ?_⟩
    intro d' db' hr
    obtain ⟨rfl, rfl⟩ := Prod.mk.inj (Option.some.inj hr)
    exact ⟨rfl, tables, h⟩
  · obtain ⟨memTable, hclear, hmem⟩ := h.top.clear
    have hne : db.memTable.isEmpty = false := by
      rw [h.top.isEmpty]
      simpa using hempty
    rw [if_neg hempty] at hshort ⊢
    rw [flushMemTable_eq {} h.top hne hclear, if_neg hempty]
    cases hb : SSTableBuilder.build codec s.gens.top.entries with
    | none => exact ⟨by simp [hb], by simp⟩
    | some file =>
        rw [Option.bind_some]
        obtain ⟨hfirst, hrest⟩ := List.forall_mem_cons.mp hshort
        obtain ⟨t, ht⟩ := h.flushed hroom hb (hfirst file hb) hmem
        obtain ⟨hiff, hrep⟩ := ht.maybeScheduleCompaction hrest
        refine ⟨?_, hrep⟩
        show Option.isSome (DB.maybeScheduleCompaction codec {} (((d.store db.nextPath file).remove
          (DB.generateLogFilename db.options)).store (DB.generateLogFilename db.options) []) _) = true ↔ _
        rw [hiff, List.forall_mem_cons, hb]
        simp

/-- The calls on an open DB. -/
inductive Call where
  | put (key value : Bytes) (height : Height)
  | delete (key : Bytes) (height : Height)
  | get (key : Bytes)
  | flushMemTable
  | compaction

/-- What a call returns. -/
inductive Answer where
  | written (ok : Bool)
  | found (value : Option Bytes)
  | done
deriving DecidableEq, Repr

namespace Call

def mutation : Call → Option Mutation
  | put key value _ => some (.put key value)
  | delete key _ => some (.delete key)
  | _ => none

/-- What a call returns on a map with these values. -/
def answer (view : Bytes → Option Bytes) : Call → Answer
  | put .. => .written true
  | delete .. => .written true
  | get key => .found (view key)
  | flushMemTable => .done
  | compaction => .done

end Call

/-- One call, when the device takes every byte. -/
def DB.call (codec : VarintCodec) (d : Disk) (db : DB) : Call → Option (Answer × Disk × DB)
  | .put key value height => (db.put codec {} d key value height).map fun r => (.written r.1, r.2)
  | .delete key height => (db.delete codec d key height).map fun r => (.written r.1, r.2)
  | .get key => (db.get d key).map fun r => (.found r.1, d, r.2)
  | .flushMemTable => (db.flushMemTable codec {} d).map fun r => (.done, r)
  | .compaction => (db.doCompaction codec {} d).map fun r => (.done, r)

/-- The same files and the same cache. -/
structure DB.SameFiles (db db' : DB) : Prop where
  options : db'.options = db.options
  nextSstId : db'.nextSstId = db.nextSstId
  blockCache : db'.blockCache = db.blockCache
  sstFiles : db'.sstFiles = db.sstFiles

/-- What a call does to the files and the cache. -/
inductive DB.Effect (codec : VarintCodec) (d : Disk) (db : DB) : Disk → DB → Prop where
  | keep {db' : DB} : db.SameFiles db' → DB.Effect codec d db d db'
  | ask {key : Bytes} {value : Option Bytes} {cache : Option LRUCache} :
      DB.getLoop d key (db.sstFiles.take (SSTableBuilder.toInt db.sstFiles.length).toNat).reverse db.blockCache =
        some (value, cache) →
      DB.Effect codec d db d { db with blockCache := cache }
  | flush {db₁ db' : DB} {d' : Disk} : db.SameFiles db₁ → db₁.flushMemTable codec {} d = some (d', db') →
      DB.Effect codec d db d' db'
  | compact {db' : DB} {d' : Disk} : db.doCompaction codec {} d = some (d', db') → DB.Effect codec d db d' db'

theorem DB.SameFiles.logBatch (db : DB) (batch : WriteBatch) : db.SameFiles (db.logBatch batch).2 := by
  rw [DB.logBatch]
  dsimp only
  split
  · exact ⟨rfl, rfl, rfl, rfl⟩
  · exact ⟨rfl, rfl, rfl, rfl⟩

theorem DB.SameFiles.memTable {db db' : DB} (h : db.SameFiles db') (memTable : MemTable) :
    db.SameFiles { db' with memTable := memTable } := ⟨h.options, h.nextSstId, h.blockCache, h.sstFiles⟩

theorem DB.Effect.of_put {key value : Bytes} {height : Height} {ok : Bool} {d' : Disk} {db' : DB}
    (h : db.put codec {} d key value height = some (ok, d', db')) : DB.Effect codec d db d' db' := by
  obtain ⟨batch, -, h⟩ := Option.bind_eq_some_iff.mp h
  have hlogged := DB.SameFiles.logBatch db batch
  generalize db.logBatch batch = p at h hlogged
  obtain ⟨logged, db₁⟩ := p
  cases logged with
  | false =>
      obtain ⟨-, he⟩ := Prod.mk.inj (Option.some.inj h)
      obtain ⟨rfl, rfl⟩ := Prod.mk.inj he
      exact .keep hlogged
  | true =>
      obtain ⟨memTable, -, h⟩ := Option.bind_eq_some_iff.mp h
      dsimp only at h
      split at h
      · obtain ⟨r, hflush, he⟩ := Option.bind_eq_some_iff.mp h
        obtain ⟨-, he⟩ := Prod.mk.inj (Option.some.inj he)
        obtain ⟨rfl, rfl⟩ := Prod.mk.inj he
        exact .flush (hlogged.memTable memTable) hflush
      · obtain ⟨-, he⟩ := Prod.mk.inj (Option.some.inj h)
        obtain ⟨rfl, rfl⟩ := Prod.mk.inj he
        exact .keep (hlogged.memTable memTable)

theorem DB.SameFiles.of_delete {key : Bytes} {height : Height} {ok : Bool} {d' : Disk} {db' : DB}
    (h : db.delete codec d key height = some (ok, d', db')) : d' = d ∧ db.SameFiles db' := by
  obtain ⟨batch, -, h⟩ := Option.bind_eq_some_iff.mp h
  have hlogged := DB.SameFiles.logBatch db batch
  generalize db.logBatch batch = p at h hlogged
  obtain ⟨logged, db₁⟩ := p
  cases logged with
  | false =>
      obtain ⟨-, he⟩ := Prod.mk.inj (Option.some.inj h)
      obtain ⟨rfl, rfl⟩ := Prod.mk.inj he
      exact ⟨rfl, hlogged⟩
  | true =>
      obtain ⟨memTable, -, h⟩ := Option.bind_eq_some_iff.mp h
      obtain ⟨-, he⟩ := Prod.mk.inj (Option.some.inj h)
      obtain ⟨rfl, rfl⟩ := Prod.mk.inj he
      exact ⟨rfl, hlogged.memTable memTable⟩

theorem DB.Effect.of_get {key : Bytes} {value : Option Bytes} {db' : DB} (h : db.get d key = some (value, db')) :
    DB.Effect codec d db d db' := by
  obtain ⟨found, -, h⟩ := Option.bind_eq_some_iff.mp h
  cases found with
  | some value =>
      obtain ⟨-, rfl⟩ := Prod.mk.inj (Option.some.inj h)
      exact .keep ⟨rfl, rfl, rfl, rfl⟩
  | none =>
      dsimp only at h
      rw [DB.getFromSSTables] at h
      obtain ⟨⟨value, cache⟩, hloop, h⟩ := Option.bind_eq_some_iff.mp h
      have hask : DB.Effect codec d db d { db with blockCache := cache } := .ask hloop
      obtain ⟨-, rfl⟩ := Prod.mk.inj (Option.some.inj h)
      exact hask

theorem DB.Effect.of_call {c : Call} {a : Answer} {d' : Disk} {db' : DB} (h : db.call codec d c = some (a, d', db')) :
    DB.Effect codec d db d' db' := by
  cases c with
  | put key value height =>
      obtain ⟨⟨ok, r⟩, hput, he⟩ := Option.map_eq_some_iff.mp h
      obtain ⟨-, rfl⟩ := Prod.mk.inj he
      exact .of_put hput
  | delete key height =>
      obtain ⟨⟨ok, r⟩, hdelete, he⟩ := Option.map_eq_some_iff.mp h
      obtain ⟨-, rfl⟩ := Prod.mk.inj he
      obtain ⟨hd, hsame⟩ := DB.SameFiles.of_delete hdelete
      rw [hd]
      exact .keep hsame
  | get key =>
      obtain ⟨⟨value, db₁⟩, hget, he⟩ := Option.map_eq_some_iff.mp h
      obtain ⟨-, he⟩ := Prod.mk.inj he
      obtain ⟨rfl, rfl⟩ := Prod.mk.inj he
      exact .of_get hget
  | flushMemTable =>
      obtain ⟨r, hflush, he⟩ := Option.map_eq_some_iff.mp h
      obtain ⟨-, rfl⟩ := Prod.mk.inj he
      exact .flush ⟨rfl, rfl, rfl, rfl⟩ hflush
  | compaction =>
      obtain ⟨r, hcompact, he⟩ := Option.map_eq_some_iff.mp h
      obtain ⟨-, rfl⟩ := Prod.mk.inj he
      exact .compact hcompact

/-- All that FlushMemTable can do: the new file, the new log, and then the compaction if it is time for one. -/
theorem flushMemTable_cases {d' : Disk} {db' : DB} (h : db.flushMemTable codec {} d = some (d', db')) :
    d' = d ∧ db' = db ∨ ∃ bytes memTable, DB.maybeScheduleCompaction codec {}
      (((d.store db.nextPath bytes).remove (DB.generateLogFilename db.options)).store
        (DB.generateLogFilename db.options) [])
      { db with
        nextSstId := db.nextSstId + 1, memTable := memTable, logWrite := LogWriter.create true none,
        sstFiles := db.sstFiles ++ [db.nextPath] } = some (d', db') := by
  unfold DB.flushMemTable at h
  -- nothing of the compaction is looked into
  generalize DB.maybeScheduleCompaction codec {} = schedule at h ⊢
  split at h
  · obtain ⟨rfl, rfl⟩ := Prod.mk.inj (Option.some.inj h)
    exact .inl ⟨rfl, rfl⟩
  · obtain ⟨builder, -, h⟩ := Option.bind_eq_some_iff.mp h
    obtain ⟨⟨ok, builder'⟩, -, h⟩ := Option.bind_eq_some_iff.mp h
    obtain ⟨memTable, -, h⟩ := Option.bind_eq_some_iff.mp h
    exact .inr ⟨builder'.file.bytes, memTable, h⟩

namespace Session

def call (options : Options) (s : Session) : Call → Session
  | .put key value _ => s.put options key value
  | .delete key _ => s.write (.delete key)
  | .get _ => s
  | .flushMemTable => s.flushMemTable options
  | .compaction => s.doCompaction

/-- The maps a call writes to files. -/
def callTables (options : Options) (s : Session) : Call → List (SortedMap Bytes Bytes)
  | .put key value _ => s.putTables options key value
  | .flushMemTable => s.flushTables options
  | .compaction => s.compactionTables
  | _ => []

end Session

theorem logBatch_eq (h : Represents codec s tables d db) (batch : WriteBatch) :
    ∃ w, db.logBatch batch = (true, { db with logWrite := w }) ∧
      (w.ok = true ∧ w.file.good = true ∧ w.file.room = none) ∧ w.file.flushed = w.file.bytes.length ∧
      w.file.bytes = db.logWrite.file.bytes ++ physicalRecord .full batch.rep := by
  obtain ⟨hok, hgood, hroom⟩ := h.writer
  have hemit : ∃ w, db.logWrite.addRecord batch.rep = (true, w) ∧ w.file.room = none := by
    have hw (header : Bytes) := OFStream.good_write header hgood hroom
    simp only [LogWriter.addRecord, hok, if_true, LogWriter.emitPhysicalRecord]
    obtain ⟨h₁, h₂⟩ := OFStream.good_write batch.rep (hw _).1 (hw _).2
    exact ⟨_, by rw [h₁], h₂⟩
  obtain ⟨w, hadd, hr⟩ := hemit
  obtain ⟨hok', hgood', hbytes⟩ := LogWriter.addRecord_true hadd
  have hflush : w.file.flush = { w.file with flushed := w.file.bytes.length } := by
    rw [OFStream.flush, if_pos hgood']
  refine ⟨w.sync.2, ?_, ⟨hok', ?_, ?_⟩, ?_, ?_⟩
  · simp only [DB.logBatch, hadd, if_true]
  · simpa only [LogWriter.sync, hflush] using hgood'
  · simpa only [LogWriter.sync, hflush] using hr
  · simp only [LogWriter.sync, hflush]
  · simpa only [LogWriter.sync, hflush] using hbytes

theorem Represents.write (h : Represents codec s tables d db) {m : Mutation} {batch : WriteBatch}
    (hb : m.batch codec = some batch) (height : Height) :
    ∃ w memTable, db.logBatch batch = (true, { db with logWrite := w }) ∧
      db.memTable.put m.key m.value height = some memTable ∧
      Represents codec (s.write m) tables d { db with logWrite := w, memTable := memTable } := by
  obtain ⟨w, hlog, hwriter, hsynced, hbytes⟩ := logBatch_eq h batch
  obtain ⟨memTable, hput, hmaps⟩ := h.top.put m.key m.value height
  obtain ⟨he, hrep⟩ := m.batch_some hb
  refine ⟨w, memTable, hlog, hput, hmaps, h.older, h.paths, h.names, h.few, h.stored, h.cached, hwriter, hsynced, ?_,
    ?_, h.logFile, h.files⟩
  · show w.file.bytes = logBytes codec (s.log ++ [m])
    rw [hbytes, h.logged, hrep]
    simp [logBytes]
  · intro a ha
    rcases List.mem_append.mp ha with ha | ha
    · exact h.encodes a ha
    · rw [List.mem_singleton.mp ha]
      exact he

/-- A call comes back exactly when its record and its files can be written, and does to the
session what it should. -/
structure CallKeeps (codec : VarintCodec) (options : Options) (s : Session) (c : Call)
    (r : Option (Answer × Disk × DB)) : Prop where
  isSome_iff : r.isSome ↔ (∀ m, c.mutation = some m → (m.batch codec).isSome) ∧
    ∀ m ∈ s.callTables options c, (SSTableBuilder.build codec m.entries).isSome
  represents : ∀ a d db, r = some (a, d, db) → a = c.answer s.view ∧ db.options = options ∧
    ∃ tables, Represents codec (s.call options c) tables d db

theorem Keeps.call {options : Options} {written : List (SortedMap Bytes Bytes)} {s' : Session} {r : Option (Disk × DB)}
    (h : Keeps codec options written s' r) {c : Call} {a : Answer}
    (hm : ∀ m, c.mutation = some m → (m.batch codec).isSome) (hw : s.callTables options c = written)
    (hs : s.call options c = s') (ha : a = c.answer s.view) :
    CallKeeps codec options s c (r.map fun p => (a, p)) := by
  subst hw hs ha
  refine ⟨?_, ?_⟩
  · rw [Option.isSome_map, h.isSome_iff]
    exact ⟨fun hall => ⟨hm, hall⟩, fun hall => hall.2⟩
  · intro a d db hr
    obtain ⟨⟨d', db'⟩, hr', he⟩ := Option.map_eq_some_iff.mp hr
    simp only [Prod.mk.injEq] at he
    obtain ⟨rfl, rfl, rfl⟩ := he
    exact ⟨rfl, h.represents _ _ hr'⟩

theorem Represents.keeps (h : Represents codec s tables d db) : Keeps codec db.options [] s (some (d, db)) := by
  refine ⟨by simp, ?_⟩
  intro d' db' hr
  obtain ⟨rfl, rfl⟩ := Prod.mk.inj (Option.some.inj hr)
  exact ⟨rfl, tables, h⟩

/-- A Put that leaves room in the MemTable. -/
theorem Represents.put_room (h : Represents codec s tables d db) {key value : Bytes} {batch : WriteBatch}
    (hb : (Mutation.put key value).batch codec = some batch) (height : Height)
    (hroom : ¬ db.options.writeBufferSize ≤ Session.sizeOf (s.write (.put key value)).gens.top) :
    ∃ w memTable, db.put codec {} d key value height = some (true, d, { db with logWrite := w, memTable := memTable }) ∧
      Represents codec (s.write (.put key value)) tables d { db with logWrite := w, memTable := memTable } := by
  obtain ⟨w, memTable, hlog, hput, hrep⟩ := h.write hb height
  have hbatch : WriteBatch.create.put codec key value = some batch := hb
  have hlt : ¬ memTable.size ≥ db.options.writeBufferSize := by
    rw [show memTable.size = Session.sizeOf (s.write (.put key value)).gens.top from hrep.top.size]
    exact hroom
  simp only [Mutation.key, Mutation.value] at hput
  refine ⟨w, memTable, ?_, hrep⟩
  simp only [DB.put, hbatch, hlog, hput, hlt, if_false, Option.bind_eq_bind, Option.bind_some, Option.pure_def]

theorem Represents.put (h : Represents codec s tables d db) (hroom : tables.length < 2 ^ 31 - 1) {key value : Bytes}
    (hshort : ∀ m ∈ s.putTables db.options key value, Short codec m) {batch : WriteBatch}
    (hb : (Mutation.put key value).batch codec = some batch) (height : Height) :
    ∃ r, db.put codec {} d key value height = r.map (fun p => (true, p)) ∧
      Keeps codec db.options (s.putTables db.options key value) (s.put db.options key value) r := by
  rw [Session.putTables] at hshort ⊢
  rw [Session.put]
  by_cases hfull : db.options.writeBufferSize ≤ Session.sizeOf (s.write (.put key value)).gens.top
  · obtain ⟨w, memTable, hlog, hput, hrep⟩ := h.write hb height
    have hbatch : WriteBatch.create.put codec key value = some batch := hb
    rw [if_pos hfull] at hshort ⊢
    refine ⟨_, ?_, by rw [if_pos hfull]; exact hrep.flushMemTable hroom hshort⟩
    have hge : memTable.size ≥ db.options.writeBufferSize := by
      rw [show memTable.size = Session.sizeOf (s.write (.put key value)).gens.top from hrep.top.size]
      exact hfull
    simp only [Mutation.key, Mutation.value] at hput
    simp only [DB.put, hbatch, hlog, hput, hge, if_true, Option.bind_eq_bind, Option.bind_some, Option.pure_def]
    exact (Option.map_eq_bind ..).symm
  · obtain ⟨w, memTable, hput, hrep⟩ := h.put_room hb height hfull
    rw [if_neg hfull, if_neg hfull, hput]
    exact ⟨some (d, { db with logWrite := w, memTable := memTable }), rfl, hrep.keeps⟩

/-- A write whose batch cannot be encoded does not come back. -/
theorem CallKeeps.of_batch_none {options : Options} {c : Call} {m : Mutation} (hm : c.mutation = some m)
    (hb : m.batch codec = none) : CallKeeps codec options s c none := by
  refine ⟨?_, by simp⟩
  constructor
  · intro h
    cases h
  · rintro ⟨hall, -⟩
    have := hall m hm
    rw [hb] at this
    cases this

theorem Represents.call (h : Represents codec s tables d db) (hroom : tables.length < 2 ^ 31 - 1) (c : Call)
    (hshort : ∀ m ∈ s.callTables db.options c, Short codec m) : CallKeeps codec db.options s c (db.call codec d c) := by
  cases c with
  | put key value height =>
      cases hb : (Mutation.put key value).batch codec with
      | none =>
          have hrun : db.call codec d (.put key value height) = none := by
            have hbatch : WriteBatch.create.put codec key value = none := hb
            simp only [DB.call, DB.put, hbatch, Option.bind_eq_bind, Option.bind_none, Option.map_none]
          rw [hrun]
          exact .of_batch_none rfl hb
      | some batch =>
          obtain ⟨r, hput, hkeeps⟩ := h.put hroom hshort hb height
          have hrun : db.call codec d (.put key value height) = r.map fun p => (.written true, p) := by
            rw [DB.call, hput, Option.map_map]
            rfl
          rw [hrun]
          refine hkeeps.call ?_ rfl rfl rfl
          intro m hm
          obtain rfl := Option.some.inj hm
          rw [hb]
          rfl
  | delete key height =>
      cases hb : (Mutation.delete key).batch codec with
      | none =>
          have hrun : db.call codec d (.delete key height) = none := by
            have hbatch : WriteBatch.create.delete codec key = none := hb
            simp only [DB.call, DB.delete, hbatch, Option.bind_eq_bind, Option.bind_none, Option.map_none]
          rw [hrun]
          exact .of_batch_none rfl hb
      | some batch =>
          obtain ⟨w, memTable, hlog, hput, hrep⟩ := h.write hb height
          have hbatch : WriteBatch.create.delete codec key = some batch := hb
          simp only [Mutation.key, Mutation.value] at hput
          have hrun : db.call codec d (.delete key height) =
              (some (d, { db with logWrite := w, memTable := memTable })).map fun p => (.written true, p) := by
            simp only [DB.call, DB.delete, hbatch, hlog, hput, Option.bind_eq_bind, Option.bind_some, Option.pure_def]
            rfl
          rw [hrun]
          refine hrep.keeps.call ?_ rfl rfl rfl
          intro m hm
          obtain rfl := Option.some.inj hm
          rw [hb]
          rfl
  | get key =>
      obtain ⟨cache, hget, hc⟩ := h.get key
      have hrun : db.call codec d (.get key) =
          (some (d, { db with blockCache := cache })).map fun p => (.found (s.view key), p) := by
        rw [DB.call, hget]
        rfl
      rw [hrun]
      exact (h.of_cache hc).keeps.call (by simp [Call.mutation]) rfl rfl rfl
  | flushMemTable => exact (h.flushMemTable hroom hshort).call (by simp [Call.mutation]) rfl rfl rfl
  | compaction => exact (h.doCompaction hshort).call (by simp [Call.mutation]) rfl rfl rfl

namespace Session

variable {options : Options}

theorem length_doCompaction (s : Session) : s.doCompaction.gens.older.length ≤ 1 := by
  rw [doCompaction]
  split
  next h => exact h
  next => simp [Generations.compact]

theorem length_flushMemTable (h : s.gens.older.length < 2 ^ 31 - 1) :
    (s.flushMemTable options).gens.older.length < 2 ^ 31 - 1 := by
  have hmax := options.maxSstableCount.toInt_lt
  rw [flushMemTable]
  split
  next => exact h
  next =>
    rw [maybeScheduleCompaction]
    split
    next =>
      have := length_doCompaction ⟨s.gens.flush, []⟩
      omega
    next hlt =>
      have hlt' : (s.gens.flush.older.length : Int) < options.maxSstableCount.toInt := not_le.mp hlt
      show s.gens.flush.older.length < 2 ^ 31 - 1
      omega

theorem length_call (h : s.gens.older.length < 2 ^ 31 - 1) (c : Call) :
    (s.call options c).gens.older.length < 2 ^ 31 - 1 := by
  cases c with
  | put key value height =>
      rw [call, put]
      split
      next => exact length_flushMemTable h
      next => exact h
  | delete key height => exact h
  | get key => exact h
  | flushMemTable => exact length_flushMemTable h
  | compaction =>
      have := length_doCompaction s
      simp only [call]
      omega

end Session

end MiniStorage.Engine
