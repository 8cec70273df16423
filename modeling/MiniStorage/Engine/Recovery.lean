import MiniStorage.Engine.Session
import Mathlib.Data.List.Sort
import Mathlib.Data.List.TakeWhile

namespace MiniStorage.Engine

variable {codec : VarintCodec} {s : Session} {tables : List Table} {d : Disk} {db : DB}

/-- The record of an operation in current.log fits its header. -/
def Mutation.Fits (codec : VarintCodec) (m : Mutation) : Prop := (batchHeader ++ m.record codec).length < 65536

/-- The map that a log stands for by itself. -/
def replay (log : List Mutation) : SortedMap Bytes Bytes := log.foldl (fun kvs m => kvs.insert m.key m.value) .empty

theorem replay_append (log : List Mutation) (m : Mutation) :
    replay (log ++ [m]) = (replay log).insert m.key m.value := by
  rw [replay, List.foldl_append]
  rfl

theorem find_replay_none {log : List Mutation} {key : Bytes} (h : ∀ m ∈ log, m.key ≠ key) :
    (replay log).find key = none := by
  induction log using List.reverseRecOn with
  | nil => rfl
  | append_singleton log m ih =>
      rw [replay_append, SortedMap.find_insert, if_neg (Ne.symm (h m (by simp)))]
      exact ih (fun a ha => h a (List.mem_append_left _ ha))

theorem length_logBytes (log : List Mutation) : log.length ≤ (logBytes codec log).length := by
  induction log with
  | nil => simp
  | cons m log ih =>
      simp only [logBytes, List.flatMap_cons, List.length_append, List.length_cons, physicalRecord] at ih ⊢
      omega

theorem recoverLoop_eq {S : Type} (handler : Handler S) {log : List Mutation} (he : ∀ m ∈ log, m.Encodes codec)
    (hfit : ∀ m ∈ log, m.Fits codec) {fuel : Nat} (hf : log.length < fuel) {r : LogReader} (ho : r.ok = true)
    (heof : r.eof = false) (hfail : r.file.failed = false) (hr : r.file.rest = logBytes codec log) (s : S) :
    DB.recoverLoop handler fuel r s = log.foldlM (fun s m => m.apply handler s) s := by
  induction log generalizing fuel r s with
  | nil =>
      obtain ⟨fuel, rfl⟩ := Nat.exists_eq_succ_of_ne_zero (by omega : fuel ≠ 0)
      obtain ⟨r', hread⟩ := LogReader.readRecord_nil hr
      rw [DB.recoverLoop, hread]
      rfl
  | cons m log ih =>
      obtain ⟨fuel, rfl⟩ := Nat.exists_eq_succ_of_ne_zero (by omega : fuel ≠ 0)
      obtain ⟨hem, hrest⟩ := List.forall_mem_cons.mp he
      obtain ⟨hfm, hfrest⟩ := List.forall_mem_cons.mp hfit
      rw [logBytes, List.flatMap_cons] at hr
      obtain ⟨f, hread, hfail', hr'⟩ := LogReader.readRecord_append ho heof hfail hr hfm
      have hiter := Mutation.iterate_record handler hem (lt_trans hfm (by decide)) s
      rw [DB.recoverLoop, hread, List.foldlM_cons]
      simp only [Option.bind_eq_bind, Option.bind_some, hiter]
      cases m.apply handler s with
      | none => rfl
      | some s' => exact ih hrest hfrest (by simpa using hf) (r := { r with file := f }) ho heof hfail' hr' s'

theorem recover_logBytes {S : Type} (handler : Handler S) {log : List Mutation} (he : ∀ m ∈ log, m.Encodes codec)
    (hfit : ∀ m ∈ log, m.Fits codec) (s : S) :
    DB.recover handler (some (logBytes codec log)) s = log.foldlM (fun s m => m.apply handler s) s :=
  recoverLoop_eq handler he hfit (Nat.lt_succ_of_le (length_logBytes log)) rfl rfl rfl rfl s

theorem foldlM_inserter (heights : Nat → Height) (log : List Mutation) {memTable : MemTable}
    {kvs : SortedMap Bytes Bytes} (h : memTable.Maps kvs) (i : Nat) :
    ∃ memTable' j, log.foldlM (fun s m => m.apply (DB.memTableInserter heights) s) (memTable, i) = some (memTable', j) ∧
      memTable'.Maps (log.foldl (fun kvs m => kvs.insert m.key m.value) kvs) := by
  induction log generalizing memTable kvs i with
  | nil => exact ⟨memTable, i, rfl, h⟩
  | cons m log ih =>
      obtain ⟨memTable₁, hput, h₁⟩ := h.put m.key m.value (heights i)
      obtain ⟨memTable', j, hfold, h'⟩ := ih h₁ (i + 1)
      refine ⟨memTable', j, ?_, h'⟩
      have happly : m.apply (DB.memTableInserter heights) (memTable, i) = some (memTable₁, i + 1) := by
        cases m <;> simpa [Mutation.apply, DB.memTableInserter, Mutation.key, Mutation.value] using hput
      rw [List.foldlM_cons, happly]
      exact hfold

theorem mem_names {d : Disk} {name : Bytes} : name ∈ d.entries.map Prod.fst ↔ d.find name ≠ none := by
  rw [Option.ne_none_iff_exists']
  constructor
  · intro h
    obtain ⟨⟨a, b⟩, hp, rfl⟩ := List.mem_map.mp h
    exact ⟨b, SortedMap.find_eq_some.mpr hp⟩
  · rintro ⟨b, hb⟩
    exact List.mem_map_of_mem (f := Prod.fst) (SortedMap.find_eq_some.mp hb)

theorem hasSstExtension_sstName (id : UInt64) : DB.hasSstExtension (sstName id) = true := by
  have hlen := Decimal.le_length_encodePadded 6 id.toNat
  have hlt : sstExtension.length < (sstName id).length := by
    rw [sstName, List.length_append]
    omega
  have hsuffix : sstExtension <:+ sstName id := List.suffix_append _ _
  rw [DB.hasSstExtension, decide_eq_true hlt, List.isSuffixOf_iff_suffix.mpr hsuffix]
  rfl

theorem stem_sstName (id : UInt64) : DB.stem (sstName id) = Decimal.encodePadded 6 id.toNat := by
  rw [DB.stem, sstName, List.length_append, Nat.add_sub_cancel, List.take_left]

theorem stoll_digits {digits : Bytes} (hne : digits ≠ []) (hd : ∀ c ∈ digits, 48 ≤ c.toNat ∧ c.toNat ≤ 57) :
    DB.stoll digits = if Decimal.decode digits < 2 ^ 63 then some (Decimal.decode digits : Int) else none := by
  obtain ⟨c, rest, rfl⟩ := List.exists_cons_of_ne_nil hne
  have hc := hd c List.mem_cons_self
  have hspace : DB.isSpace c = false := by
    have h32 : c ≠ 32 := by
      rintro rfl
      exact absurd hc.1 (by decide)
    have h13 : ¬ c ≤ 13 := by
      rw [UInt8.le_iff_toNat_le]
      exact fun h => absurd (le_trans hc.1 h) (by decide)
    simp [DB.isSpace, h32, h13]
  have hminus : c ≠ 45 := by
    rintro rfl
    exact absurd hc.1 (by decide)
  have hplus : c ≠ 43 := by
    rintro rfl
    exact absurd hc.1 (by decide)
  have hall : (c :: rest).takeWhile DB.isDigit = c :: rest := by
    rw [List.takeWhile_eq_self_iff]
    intro a ha
    have h := hd a ha
    simp only [DB.isDigit, Bool.and_eq_true, decide_eq_true_eq, UInt8.le_iff_toNat_le]
    exact h
  have hdrop : (c :: rest).dropWhile DB.isSpace = c :: rest := List.dropWhile_cons_of_neg (by simp [hspace])
  have hhead (a : UInt8) (ha : c ≠ a) : ((c :: rest).head? == some a) = false := by simpa using ha
  simp only [DB.stoll, hdrop, hhead 45 hminus, hhead 43 hplus, Bool.or_self, Bool.false_eq_true, if_false, hall,
    List.cons_ne_nil, false_or]
  by_cases hlt : Decimal.decode (c :: rest) < 2 ^ 63
  · rw [if_pos hlt, if_neg (by omega)]
  · rw [if_neg hlt, if_pos (by omega)]

theorem stoll_sstName (id : UInt64) :
    DB.stoll (DB.stem (sstName id)) = if id.toNat < 2 ^ 63 then some (id.toNat : Int) else none := by
  have hlen := Decimal.le_length_encodePadded 6 id.toNat
  rw [stem_sstName, stoll_digits (List.ne_nil_of_length_pos (by omega)) (fun c hc => Decimal.mem_encodePadded hc),
    Decimal.decode_encodePadded]

theorem nextIdAfter_eq {next id : UInt64} {path : Bytes} (hp : fileName path = sstName id)
    (hs : (DB.stoll (DB.stem (fileName path))).isSome) :
    DB.nextIdAfter next path = if id ≥ next then id + 1 else next := by
  rw [hp, stoll_sstName] at hs
  have hlt : id.toNat < 2 ^ 63 := by
    by_contra hge
    rw [if_neg hge] at hs
    cases hs
  have hint : UInt64.ofInt (id.toNat : Int) = id := by
    rw [UInt64.ofInt, Int.emod_eq_of_lt (by omega) (by omega), Int.toNat_natCast, UInt64.ofNat_toNat]
  simp only [DB.nextIdAfter, hp, stoll_sstName, hlt, if_true, hint]

theorem foldl_nextIdAfter {first : UInt64} {paths : List Bytes} (hp : paths.map fileName = sstNames first paths.length)
    (hs : ∀ path ∈ paths, (DB.stoll (DB.stem (fileName path))).isSome) :
    paths.foldl DB.nextIdAfter 1 = if paths = [] then 1 else first + UInt64.ofNat paths.length := by
  induction paths using List.reverseRecOn with
  | nil => rfl
  | append_singleton paths path ih =>
      rw [List.map_append, List.length_append, List.length_singleton, sstNames_succ] at hp
      obtain ⟨hp', hlast⟩ := List.append_inj' hp rfl
      have hname : fileName path = sstName (first + UInt64.ofNat paths.length) := by simpa using hlast
      rw [List.foldl_append, List.foldl_cons, List.foldl_nil, nextIdAfter_eq hname (hs path (by simp)),
        ih hp' (fun p h => hs p (List.mem_append_left _ h)), if_neg (by simp : paths ++ [path] ≠ []),
        List.length_append, List.length_singleton, UInt64.ofNat_add, ← UInt64.add_assoc]
      by_cases hnil : paths = []
      · subst hnil
        by_cases hfirst : first ≥ 1
        · simp [hfirst]
        · have hzero : first = 0 := by
            rw [ge_iff_le, UInt64.le_iff_toNat_le] at hfirst
            apply UInt64.toNat_inj.mp
            simpa using hfirst
          simp [hzero]
      · rw [if_neg hnil, if_pos (UInt64.le_refl _)]
        rfl

theorem joinPath_lt (dir : Bytes) {a b : Bytes} (h : a < b) : joinPath dir a < joinPath dir b := by
  unfold joinPath
  split
  · exact List.append_left_lt h
  · have hcons : [slash] ++ a < [slash] ++ b := List.append_left_lt h
    exact List.append_left_lt hcons

theorem fileName_joinPath (dir : Bytes) {name : Bytes} (h : slash ∉ name) : fileName (joinPath dir name) = name := by
  unfold joinPath
  split
  next hlast =>
    cases hd : dir.getLast? with
    | none =>
        rw [List.getLast?_eq_none_iff.mp hd, List.nil_append]
        have hall : ∀ c ∈ name.reverse, (c != slash) = true := by
          intro c hc
          rw [bne_iff_ne]
          rintro rfl
          exact h (List.mem_reverse.mp hc)
        rw [fileName, List.takeWhile_eq_self_iff.mpr hall, List.reverse_reverse]
    | some c =>
        rw [hd] at hlast
        obtain ⟨dir', rfl⟩ := List.getLast?_eq_some_iff.mp hd
        have hc : c = slash := by simpa using hlast
        rw [hc, List.append_assoc]
        exact fileName_append h
  next => exact fileName_append h

theorem loadSSTableList_eq (options : Options) {names : List Bytes} (hasc : names.Pairwise (· < ·))
    (hmem : ∀ name, name ∈ names ↔ d.find name ≠ none ∧ DB.hasSstExtension name = true) :
    (DB.loadSSTableList options d).1 = names.map (joinPath options.dbPath) := by
  have hkeys : (d.entries.map Prod.fst).Pairwise (· < ·) := d.ascending.map Prod.fst (fun _ _ h => h)
  have hfilter : (d.entries.map Prod.fst).filter DB.hasSstExtension = names := by
    have hperm : ((d.entries.map Prod.fst).filter DB.hasSstExtension).Perm names := by
      refine (List.perm_ext_iff_of_nodup ((hkeys.filter _).imp ne_of_lt) (hasc.imp ne_of_lt)).mpr ?_
      intro name
      rw [List.mem_filter, mem_names, hmem]
    exact hperm.eq_of_pairwise (fun _ _ _ _ h h' => absurd h' (not_lt_of_gt h)) (hkeys.filter _) hasc
  rw [DB.loadSSTableList, hfilter]
  apply List.mergeSort_of_pairwise
  exact (hasc.map _ (fun _ _ h => joinPath_lt _ h)).imp (fun h => decide_eq_true (le_of_lt h))


/-- The log behind a close or a crash: every record was synced. -/
theorem Represents.find_left (h : Represents codec s tables d db) {d' : Disk}
    (hd : d' = DB.close d db ∨ d' = DB.crash d db) (name : Bytes) :
    d'.find name = if name = logName then some (logBytes codec s.log) else d.find name := by
  have hbytes : d' = DB.leave d db (logBytes codec s.log) := by
    rw [← h.logged]
    have hdurable : db.logWrite.file.durable = db.logWrite.file.bytes := by
      rw [OFStream.durable, h.synced, List.take_length]
    rcases hd with rfl | rfl
    · rw [DB.close, LogWriter.close, OFStream.flush, if_pos h.writer.2.1, OFStream.durable, List.take_length]
    · rw [DB.crash, hdurable]
  rw [hbytes, DB.leave]
  by_cases hempty : (logBytes codec s.log).isEmpty = true
  · rw [if_pos hempty, List.isEmpty_iff.mp hempty]
    split
    next hn => rw [hn, h.logFile]
    next => rfl
  · rw [if_neg hempty, Disk.find_store, fileName_log]

/-- What a reopened DB starts with. -/
def Session.reopen (s : Session) : Session := ⟨⟨replay s.log, s.gens.older⟩, []⟩

/-- The file of a table in another directory. -/
def Table.moved (dir : Bytes) (t : Table) : Table := { t with name := joinPath dir (fileName t.name) }

theorem Table.fileName_moved (dir : Bytes) {t : Table} {id : UInt64} (h : fileName t.name = sstName id) :
    fileName (t.moved dir).name = fileName t.name := by
  rw [Table.moved, h]
  exact fileName_joinPath dir (slash_notMem_sstName id)

namespace Represents

variable {d' : Disk}

theorem fileName_paths (h : Represents codec s tables d db) :
    db.sstFiles.map fileName = tables.map (fun t => fileName t.name) := by
  rw [h.paths, List.map_map]
  rfl

theorem fileName_moved (h : Represents codec s tables d db) (dir : Bytes) {t : Table} (ht : t ∈ tables) :
    fileName (t.moved dir).name = fileName t.name := by
  obtain ⟨id, hid⟩ := h.fileName_mem ht
  exact Table.fileName_moved dir hid

/-- The directory has the files of the list, and no others that look like one. -/
theorem mem_fileNames (h : Represents codec s tables d db) (hd : d' = DB.close d db ∨ d' = DB.crash d db)
    (name : Bytes) :
    name ∈ db.sstFiles.map fileName ↔ d'.find name ≠ none ∧ DB.hasSstExtension name = true := by
  rw [h.fileName_paths, h.find_left hd]
  constructor
  · intro hn
    obtain ⟨t, ht, rfl⟩ := List.mem_map.mp hn
    obtain ⟨id, hid⟩ := h.fileName_mem ht
    obtain ⟨bytes, f, hread, -⟩ := h.stored t ht
    have hne : fileName t.name ≠ logName := by
      rw [hid]
      exact sstName_ne_logName id
    refine ⟨?_, by rw [hid]; exact hasSstExtension_sstName id⟩
    rw [if_neg hne]
    intro hnone
    exact Option.some_ne_none _ (hread.symm.trans hnone)
  · rintro ⟨hn, hext⟩
    have hne : name ≠ logName := by
      rintro rfl
      revert hext
      decide
    rw [if_neg hne] at hn
    rcases h.files name hn with hl | ⟨t, ht, rfl⟩
    · exact absurd hl hne
    · exact List.mem_map_of_mem (f := fun t => fileName t.name) ht

theorem loaded_paths (h : Represents codec s tables d db) (hd : d' = DB.close d db ∨ d' = DB.crash d db)
    (hasc : (db.sstFiles.map fileName).Pairwise (· < ·)) (options : Options) :
    (DB.loadSSTableList options d').1 = (tables.map (Table.moved options.dbPath)).map Table.name := by
  rw [loadSSTableList_eq options hasc (h.mem_fileNames hd), h.fileName_paths, List.map_map, List.map_map]
  rfl

/-- The next number is past those of all the files. -/
theorem loaded_next (h : Represents codec s tables d db) (hd : d' = DB.close d db ∨ d' = DB.crash d db)
    (hasc : (db.sstFiles.map fileName).Pairwise (· < ·))
    (hnum : ∀ f ∈ db.sstFiles, (DB.stoll (DB.stem (fileName f))).isSome) (options : Options) {first : UInt64}
    (hnames : (tables.map (Table.moved options.dbPath)).map (fun t => fileName t.name) = sstNames first tables.length) :
    (DB.loadSSTableList options d').2 = (if tables = [] then 1 else first) + UInt64.ofNat tables.length := by
  have hfold := @foldl_nextIdAfter first ((tables.map (Table.moved options.dbPath)).map Table.name)
    (by rw [List.map_map, List.length_map, List.length_map]; exact hnames) (by
      intro path hpath
      obtain ⟨t, ht, rfl⟩ := List.mem_map.mp hpath
      obtain ⟨u, hu, rfl⟩ := List.mem_map.mp ht
      rw [h.fileName_moved options.dbPath hu]
      apply hnum
      rw [h.paths]
      exact List.mem_map_of_mem hu)
  show (DB.loadSSTableList options d').1.foldl DB.nextIdAfter 1 = _
  rw [h.loaded_paths hd hasc, hfold]
  by_cases hnil : tables = []
  · simp [hnil]
  · simp [hnil]

theorem read_moved (h : Represents codec s tables d db) (hd : d' = DB.close d db ∨ d' = DB.crash d db)
    (options : Options) {t : Table} (ht : t ∈ tables) :
    (d'.store (DB.generateLogFilename options) []).read (t.moved options.dbPath).name = d.read t.name := by
  obtain ⟨id, hid⟩ := h.fileName_mem ht
  have hne : sstName id ≠ logName := sstName_ne_logName id
  rw [Disk.read, Table.fileName_moved _ hid, Disk.find_store, fileName_log, hid, if_neg hne, h.find_left hd, if_neg hne,
    Disk.read, hid]

/-- The constructor reads back what the DB that was closed or crashed had logged. The list of
files is in order when their names are, and the next number is past all that can be read. -/
theorem reopen (h : Represents codec s tables d db) {d' : Disk}
    (hd : d' = DB.close d db ∨ d' = DB.crash d db) (hfit : ∀ m ∈ s.log, m.Fits codec)
    (hasc : (db.sstFiles.map fileName).Pairwise (· < ·))
    (hnum : ∀ f ∈ db.sstFiles, (DB.stoll (DB.stem (fileName f))).isSome) (heights : Nat → Height) (options : Options) :
    ∃ d'' db', DB.create {} heights options d' = some (d'', db') ∧ db'.options = options ∧
      ∃ tables', Represents codec s.reopen tables' d'' db' := by
  obtain ⟨first, hnames, -⟩ := h.names
  have hnames' : (tables.map (Table.moved options.dbPath)).map (fun t => fileName t.name) =
      sstNames first tables.length := by
    rw [← hnames, List.map_map]
    exact List.map_congr_left fun t ht => h.fileName_moved options.dbPath ht
  obtain ⟨memTable, j, hfold, hmaps⟩ := foldlM_inserter heights s.log MemTable.Maps.create 0
  have hrecover : DB.recover (DB.memTableInserter heights) (d'.read (DB.generateLogFilename options))
      (MemTable.create, 0) = some (memTable, j) := by
    rw [Disk.read, fileName_log, h.find_left hd, if_pos rfl, recover_logBytes _ h.encodes hfit]
    exact hfold
  refine ⟨d'.store (DB.generateLogFilename options) [], {
    options := options
    nextSstId := (DB.loadSSTableList options d').2
    memTable := memTable
    logWrite := LogWriter.create true none
    blockCache := some (LRUCache.create options.blockCacheSize)
    sstFiles := (DB.loadSSTableList options d').1 }, ?_, rfl, tables.map (Table.moved options.dbPath), hmaps, ?_,
    h.loaded_paths hd hasc options, ⟨if tables = [] then 1 else first, ?_, ?_⟩, ?_, ?_,
    ⟨[], LRUCache.Holds.create options.blockCacheSize, by simp⟩, ⟨rfl, rfl, rfl⟩, rfl, rfl, by simp [Session.reopen],
    ?_, ?_⟩
  · rw [DB.create]
    show (DB.recover _ (d'.read (DB.generateLogFilename options)) _).bind _ = _
    rw [hrecover]
    rfl
  · show s.gens.older = (tables.map (Table.moved options.dbPath)).map Table.kvs
    rw [h.older, List.map_map]
    rfl
  · rw [hnames', List.length_map]
    by_cases hnil : tables = []
    · simp [hnil, sstNames]
    · rw [if_neg hnil]
  · rw [List.length_map]
    exact h.loaded_next hd hasc hnum options hnames'
  · rw [List.length_map]
    exact h.few
  · intro t ht
    obtain ⟨u, hu, rfl⟩ := List.mem_map.mp ht
    obtain ⟨bytes, f, hbytes, htable⟩ := h.stored u hu
    exact ⟨bytes, f, (h.read_moved hd options hu).trans hbytes, htable⟩
  · rw [Disk.find_store, if_pos (fileName_log options).symm]
  · intro name hname
    rw [Disk.find_store, fileName_log] at hname
    by_cases hl : name = logName
    · exact .inl hl
    · rw [if_neg hl, h.find_left hd, if_neg hl] at hname
      rcases h.files name hname with hl' | ⟨t, ht, rfl⟩
      · exact absurd hl' hl
      · exact .inr ⟨t.moved options.dbPath, List.mem_map_of_mem ht, (h.fileName_moved options.dbPath ht).symm⟩

end Represents

end MiniStorage.Engine
