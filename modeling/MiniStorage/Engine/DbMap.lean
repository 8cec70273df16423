import MiniStorage.Engine.Session

namespace MiniStorage.Engine

variable {codec : VarintCodec} {s : Session} {tables : List Table} {d : Disk} {db : DB}

namespace Session

variable {options : Options}

theorem view_doCompaction (s : Session) : s.doCompaction.view = s.view := by
  rw [doCompaction]
  split
  · rfl
  · exact Generations.view_compact isTombstone s.gens

theorem view_flushMemTable (s : Session) : (s.flushMemTable options).view = s.view := by
  have hflush : (⟨s.gens.flush, []⟩ : Session).view = s.view := Generations.view_flush isTombstone s.gens
  rw [flushMemTable]
  split
  · rfl
  · rw [maybeScheduleCompaction]
    split
    · rw [view_doCompaction, hflush]
    · exact hflush

/-- What Get answers when these were the writes: the last one to the key counts. -/
def lastValue (past : List Mutation) (key : Bytes) : Option Bytes :=
  ((past.reverse.find? (fun m => m.key = key)).map Mutation.value).filter (fun v => !isTombstone v)

theorem lastValue_append (past : List Mutation) (m : Mutation) (key : Bytes) :
    lastValue (past ++ [m]) key =
      if m.key = key then (some m.value).filter (fun v => !isTombstone v) else lastValue past key := by
  rw [lastValue, List.reverse_append, List.reverse_singleton, List.singleton_append, List.find?_cons]
  by_cases h : m.key = key
  · simp [h]
  · simp [h, lastValue]

theorem view_write (s : Session) (m : Mutation) {past : List Mutation} (h : s.view = lastValue past) :
    (s.write m).view = lastValue (past ++ [m]) := by
  funext key
  have hw := Generations.view_write isTombstone s.gens m.key m.value key
  rw [lastValue_append, ← h]
  refine hw.trans ?_
  by_cases hk : key = m.key
  · rw [if_pos hk, if_pos hk.symm]
  · rw [if_neg hk, if_neg (Ne.symm hk)]
    rfl

theorem view_call (s : Session) (c : Call) {past : List Mutation} (h : s.view = lastValue past) :
    (s.call options c).view = lastValue (past ++ c.mutation.toList) := by
  cases c with
  | put key value height =>
      rw [call, put]
      split
      · rw [view_flushMemTable]
        exact view_write s _ h
      · exact view_write s _ h
  | delete key height => exact view_write s _ h
  | get key => simpa [Call.mutation, call] using h
  | flushMemTable => simpa [Call.mutation, call, view_flushMemTable] using h
  | compaction => simpa [Call.mutation, call, view_doCompaction] using h

end Session

theorem length_flatten_le {blocks : List BolckData}
    (he : ∀ p ∈ blocks.flatten, codec.Encodes p.1.length ∧ codec.Encodes p.2.length) :
    2 * blocks.flatten.length ≤ (dataBytes codec blocks).length := by
  have hblock (block : BolckData) (he : ∀ p ∈ block, codec.Encodes p.1.length ∧ codec.Encodes p.2.length) :
      2 * block.length ≤ (blockBytes codec block).length := by
    induction block with
    | nil => simp
    | cons p block ih =>
        obtain ⟨⟨hk, hv⟩, hrest⟩ := List.forall_mem_cons.mp he
        have h₁ := length_bytes_pos hk
        have h₂ := length_bytes_pos hv
        have h₃ := ih hrest
        simp only [blockBytes, List.flatMap_cons, List.length_append, List.length_cons, lengthPrefixed] at h₃ ⊢
        omega
  induction blocks with
  | nil => simp
  | cons block blocks ih =>
      rw [List.flatten_cons] at he
      have h₁ := hblock block (fun p hp => he p (List.mem_append_left _ hp))
      have h₂ := ih (fun p hp => he p (List.mem_append_right _ hp))
      simp only [List.flatten_cons, List.length_append, dataBytes, List.flatMap_cons, length_withCrc] at h₂ ⊢
      omega

/-- What bounds a table is the int that counts the bits of its filter. -/
theorem build_isSome_iff (htotal : ∀ n, codec.Encodes n) {kvs : SortedMap Bytes Bytes} (hshort : Short codec kvs) :
    (SSTableBuilder.build codec kvs.entries).isSome ↔ kvs.entries.length < 214748365 := by
  constructor
  · intro h
    obtain ⟨file, hb⟩ := Option.isSome_iff_exists.mp h
    obtain ⟨blocks, f, htable, hflat⟩ := SSTableBuilder.build_some hb
    have hle := length_flatten_le htable.encodes
    have hlen := hshort file hb
    rw [htable.bytes_eq, tableBytes] at hlen
    simp only [List.length_append] at hlen
    rw [hflat] at hle
    by_contra hge
    rw [SSTableBuilder.build_eq_none (by omega) (by omega)] at hb
    cases hb
  · intro h
    exact SSTableBuilder.build_isSome htotal (by omega)

/-- Calls one after the other, and their answers. -/
def DB.run (codec : VarintCodec) : Disk → DB → List Call → Option (List Answer)
  | _, _, [] => some []
  | d, db, c :: calls => do
      let (a, d, db) ← db.call codec d c
      let answers ← DB.run codec d db calls
      return a :: answers

namespace Session

/-- The maps that the files of a run are written from. -/
def runTables (options : Options) : Session → List Call → List (SortedMap Bytes Bytes)
  | _, [] => []
  | s, c :: calls => s.callTables options c ++ runTables options (s.call options c) calls

/-- What the calls answer when Get(k) goes by the last write to k. -/
def mapAnswers : List Mutation → List Call → List Answer
  | _, [] => []
  | past, c :: calls => c.answer (lastValue past) :: mapAnswers (past ++ c.mutation.toList) calls

def empty : Session := ⟨.empty, []⟩

end Session

theorem Represents.run (htotal : ∀ n, codec.Encodes n) {options : Options} {calls : List Call} {past : List Mutation}
    (h : Represents codec s tables d db) (ho : db.options = options) (hroom : s.gens.older.length < 2 ^ 31 - 1)
    (hview : s.view = Session.lastValue past) (hshort : ∀ m ∈ s.runTables options calls, Short codec m) :
    db.run codec d calls = some (Session.mapAnswers past calls) ↔
      ∀ m ∈ s.runTables options calls, m.entries.length < 214748365 := by
  induction calls generalizing s tables d db past with
  | nil => simp [DB.run, Session.mapAnswers, Session.runTables]
  | cons c calls ih =>
      subst ho
      rw [Session.runTables] at hshort ⊢
      obtain ⟨hfirst, hrest⟩ := List.forall_mem_append.mp hshort
      obtain ⟨hiff, hrep⟩ := h.call (by rw [← h.length_older]; exact hroom) c hfirst
      have hbatch : ∀ m, c.mutation = some m → (m.batch codec).isSome := by
        rintro m -
        exact m.batch_isSome htotal
      have hbuild : (∀ m ∈ s.callTables db.options c, (SSTableBuilder.build codec m.entries).isSome) ↔
          ∀ m ∈ s.callTables db.options c, m.entries.length < 214748365 :=
        forall₂_congr (fun m hm => build_isSome_iff htotal (hfirst m hm))
      rw [List.forall_mem_append, ← hbuild, DB.run]
      cases hcall : db.call codec d c with
      | none =>
          rw [hcall] at hiff
          constructor
          · intro hrun
            cases hrun
          · rintro ⟨hall, -⟩
            cases hiff.mpr ⟨hbatch, hall⟩
      | some r =>
          obtain ⟨a, d', db'⟩ := r
          obtain ⟨rfl, ho', tables', h'⟩ := hrep a d' db' hcall
          rw [hcall] at hiff
          have hstep := ih h' ho' (Session.length_call hroom c) (Session.view_call s c hview) hrest
          rw [and_iff_right (hiff.mp rfl).2, ← hstep, Session.mapAnswers, hview]
          simp only [Option.bind_eq_bind, Option.bind_some, Option.pure_def]
          cases db'.run codec d' calls with
          | none => simp
          | some answers => simp

theorem loadSSTableList_empty (options : Options) : DB.loadSSTableList options .empty = ([], 1) := by
  simp [DB.loadSSTableList, SortedMap.empty]

theorem Represents.create (codec : VarintCodec) (heights : Nat → Height) (options : Options) :
    ∃ d db, DB.create {} heights options .empty = some (d, db) ∧ Represents codec .empty [] d db ∧
      db.options = options := by
  refine ⟨Disk.store .empty (DB.generateLogFilename options) [], {
    options := options
    nextSstId := 1
    memTable := MemTable.create
    logWrite := LogWriter.create true none
    blockCache := some (LRUCache.create options.blockCacheSize)
    sstFiles := [] }, ?_, ⟨MemTable.Maps.create, rfl, rfl, ⟨1, rfl, rfl⟩, by decide, by simp, ?_, ⟨rfl, rfl, rfl⟩, rfl, rfl,
      by simp [Session.empty], ?_, ?_⟩, rfl⟩
  · rw [DB.create, loadSSTableList_empty]
    rfl
  · exact ⟨[], LRUCache.Holds.create _, by simp⟩
  · rw [Disk.find_store, if_pos (fileName_log options).symm]
  · intro name hfind
    rw [Disk.find_store] at hfind
    by_cases hn : name = fileName (DB.generateLogFilename options)
    · rw [fileName_log] at hn
      exact .inl hn
    · rw [if_neg hn] at hfind
      exact absurd rfl hfind

/-- A session on an empty directory is a map exactly when no call hands a file 214748365 entries or more. -/
theorem db_refines_map_iff (options : Options) (heights : Nat → Height) (calls : List Call)
    (hshort : ∀ m ∈ Session.empty.runTables options calls, Short .base128 m) :
    (∃ d db, DB.create {} heights options .empty = some (d, db) ∧
      db.run .base128 d calls = some (Session.mapAnswers [] calls)) ↔
        ∀ m ∈ Session.empty.runTables options calls, m.entries.length < 214748365 := by
  obtain ⟨d, db, hcreate, hrep, ho⟩ := Represents.create .base128 heights options
  have hview : Session.empty.view = Session.lastValue [] := rfl
  have hrun := hrep.run VarintCodec.base128_encodes ho (by decide) hview hshort
  rw [← hrun]
  constructor
  · rintro ⟨d', db', hcreate', h⟩
    obtain ⟨rfl, rfl⟩ := Prod.mk.inj (Option.some.inj (hcreate.symm.trans hcreate'))
    exact h
  · intro h
    exact ⟨d, db, hcreate, h⟩

theorem db_refines_map_two_files :
    ∃ d db, DB.create {} (fun _ => ⟨1, by decide⟩) { writeBufferSize := 2 } .empty = some (d, db) ∧
      db.run .base128 d [.put [1] [2] ⟨1, by decide⟩, .put [1] [3] ⟨2, by decide⟩, .get [1], .delete [1] ⟨1, by decide⟩,
        .flushMemTable, .compaction, .get [1]] =
        some [.written true, .written true, .found (some [3]), .written true, .done, .done, .found none] := by
  let calls : List Call := [.put [1] [2] ⟨1, by decide⟩, .put [1] [3] ⟨2, by decide⟩, .get [1], .delete [1] ⟨1, by decide⟩,
    .flushMemTable, .compaction, .get [1]]
  have hall : ((Session.empty.runTables { writeBufferSize := 2 } calls).all fun m =>
      (SSTableBuilder.build .base128 m.entries).all (fun file => decide (file.length < 2 ^ 32)) &&
        decide (m.entries.length < 214748365)) = true := by decide +kernel
  simp only [List.all_eq_true, Bool.and_eq_true, decide_eq_true_eq] at hall
  refine (db_refines_map_iff { writeBufferSize := 2 } _ calls ?_).mpr (fun m hm => (hall m hm).2)
  intro m hm file hfile
  have := (hall m hm).1
  rw [hfile] at this
  simpa using this

namespace Session

variable {options : Options}

theorem runTables_append (s : Session) (xs ys : List Call) :
    s.runTables options (xs ++ ys) = s.runTables options xs ++ (xs.foldl (call options) s).runTables options ys := by
  induction xs generalizing s with
  | nil => rfl
  | cons x xs ih => rw [List.cons_append, runTables, ih, runTables, List.foldl_cons, List.append_assoc]

/-- Puts of different keys of four bytes, and one byte each. -/
def fillCalls (n : Nat) : List Call := (List.range n).map (fun i => .put (LittleEndian.encode 4 i) [1] ⟨1, by decide⟩)

/-- What `fillCalls` leaves in the MemTable as long as nothing is flushed. -/
structure Filled (s : Session) (n : Nat) : Prop where
  older : s.gens.older = []
  length : s.gens.top.entries.length = n
  size : sizeOf s.gens.top = 5 * n
  keys : ∀ i, n ≤ i → i < 2 ^ 32 → s.gens.top.find (LittleEndian.encode 4 i) = none

theorem Filled.put {s : Session} {n : Nat} (h : s.Filled n) (hn : n < 2 ^ 32) :
    (s.write (.put (LittleEndian.encode 4 n) [1])).Filled (n + 1) := by
  have hperm := SortedMap.perm_insert [1] (h.keys n le_rfl hn)
  refine ⟨h.older, ?_, ?_, ?_⟩
  · show (s.gens.top.insert (LittleEndian.encode 4 n) [1]).entries.length = n + 1
    rw [hperm.length_eq, List.length_cons, h.length]
  · show ((s.gens.top.insert (LittleEndian.encode 4 n) [1]).entries.map _).sum = 5 * (n + 1)
    have hsize := h.size
    rw [sizeOf] at hsize
    rw [(hperm.map _).sum_nat, List.map_cons, List.sum_cons, hsize]
    simp
    omega
  · intro i hi hlt
    show (s.gens.top.insert (LittleEndian.encode 4 n) [1]).find (LittleEndian.encode 4 i) = none
    rw [SortedMap.find_insert, if_neg, h.keys i (by omega) hlt]
    intro he
    have hd := congrArg LittleEndian.decode he
    rw [LittleEndian.decode_encode_of_lt (by omega), LittleEndian.decode_encode_of_lt (by omega)] at hd
    omega

theorem Filled.run {n : Nat} (hn : n < 2 ^ 32) (hroom : 5 * n < options.writeBufferSize) :
    ((fillCalls n).foldl (call options) .empty).Filled n ∧ Session.empty.runTables options (fillCalls n) = [] := by
  induction n with
  | zero => exact ⟨⟨rfl, rfl, rfl, fun _ _ _ => rfl⟩, rfl⟩
  | succ n ih =>
      obtain ⟨hfill, htables⟩ := ih (by omega) (by omega)
      have hsucc : fillCalls (n + 1) = fillCalls n ++ [.put (LittleEndian.encode 4 n) [1] ⟨1, by decide⟩] := by
        simp [fillCalls, List.range_succ]
      have hput := hfill.put (by omega)
      have hlt : ¬ options.writeBufferSize ≤
          sizeOf (((fillCalls n).foldl (call options) .empty).write (.put (LittleEndian.encode 4 n) [1])).gens.top := by
        rw [hput.size]
        omega
      rw [hsucc, List.foldl_append, runTables_append, htables]
      constructor
      · simpa only [List.foldl_cons, List.foldl_nil, call, Session.put, if_neg hlt] using hput
      · simp only [runTables, callTables, putTables, if_neg hlt, List.append_nil]

end Session

/-- 214748365 different keys fit in a file, but not in the filter's count of bits. -/
theorem db_fault_at_214748365 : ¬ ∀ (options : Options) (heights : Nat → Height) (calls : List Call),
    (∀ m ∈ Session.empty.runTables options calls, Short .base128 m) →
      ∃ d db, DB.create {} heights options .empty = some (d, db) ∧
        db.run .base128 d calls = some (Session.mapAnswers [] calls) := by
  intro hall
  let options : Options := { writeBufferSize := 2 ^ 40 }
  let heights : Nat → Height := fun _ => ⟨1, by decide⟩
  have hroom : 5 * 214748365 < options.writeBufferSize := by decide
  obtain ⟨hfill, htables⟩ := Session.Filled.run (n := 214748365) (by decide) hroom
  generalize hs : (Session.fillCalls 214748365).foldl (Session.call options) .empty = s at hfill
  have hempty : s.gens.top.entries.isEmpty = false := by
    rw [List.isEmpty_eq_false_iff, ← List.length_pos_iff, hfill.length]
    decide
  have hlast : s.runTables options [.flushMemTable] = [s.gens.top] := by
    have hno : ¬ (1 : Int) ≥ options.maxSstableCount.toInt := by decide
    simp [Session.runTables, Session.callTables, Session.flushTables, hempty, Session.scheduledTables,
      Generations.flush, hfill.older, hno]
  have hrun : Session.empty.runTables options (Session.fillCalls 214748365 ++ [.flushMemTable]) = [s.gens.top] := by
    rw [Session.runTables_append, htables, hs, hlast]
    rfl
  have hnone : SSTableBuilder.build .base128 s.gens.top.entries = none :=
    SSTableBuilder.build_eq_none (by rw [hfill.length]; decide) (by rw [hfill.length]; decide)
  have hshort : ∀ m ∈ Session.empty.runTables options (Session.fillCalls 214748365 ++ [.flushMemTable]),
    Short .base128 m := by
    rw [hrun]
    intro m hm file hfile
    rw [List.mem_singleton.mp hm, hnone] at hfile
    cases hfile
  obtain ⟨d, db, hcreate, hrep, ho⟩ := Represents.create .base128 heights options
  obtain ⟨d', db', hcreate', hgood⟩ := hall options heights _ hshort
  obtain ⟨rfl, rfl⟩ := Prod.mk.inj (Option.some.inj (hcreate.symm.trans hcreate'))
  have hview : Session.empty.view = Session.lastValue [] := rfl
  have hlt := (hrep.run VarintCodec.base128_encodes ho (by decide) hview hshort).mp hgood
  rw [hrun] at hlt
  have := hlt _ (List.mem_singleton_self _)
  rw [hfill.length] at this
  omega

end MiniStorage.Engine
