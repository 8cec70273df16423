import MiniStorage.Engine.Recovery

namespace MiniStorage.Engine

variable {codec : VarintCodec} {tables : List Table} {ids : List UInt64} {d d' : Disk} {db db' : DB}

theorem openFile_filename (p q : Bytes) (file : Option Bytes) :
    SSTableReader.openFile p file = (SSTableReader.openFile q file).map fun r => (r.1, { r.2 with filename := p }) := by
  have hbind {A B C : Type} (x : Option A) {f : A → Option C} {g : A → Option B} {k : B → C}
      (h : ∀ a, f a = (g a).map k) : x >>= f = (x >>= g).map k := by
    cases x with
    | none => rfl
    | some a => exact h a
  cases file with
  | none => rfl
  | some bytes =>
      unfold SSTableReader.openFile
      dsimp only
      split
      · rfl
      · iterate 5 refine hbind _ fun _ => ?_
        rw [apply_ite (Option.map _)]
        exact ite_congr rfl (fun _ => rfl) (fun _ => hbind _ fun _ => rfl)

theorem sstName_lt {a b : UInt64} (h : a < b) (hb : b.toNat < 10 ^ 6) : sstName a < sstName b := by
  have hlt : a.toNat < b.toNat := UInt64.lt_iff_toNat_lt.mp h
  apply Decimal.append_lt_append
  · rw [Decimal.length_encodePadded (by decide) (lt_trans hlt hb), Decimal.length_encodePadded (by decide) hb]
  · exact Decimal.encodePadded_lt (by decide) hlt hb

theorem length_ids (hasc : ids.Pairwise (· < ·)) (hsmall : ∀ id ∈ ids, id.toNat < 10 ^ 6) : ids.length < 2 ^ 31 := by
  have hnodup : (ids.map UInt64.toNat).Nodup := List.Nodup.map (fun _ _ => UInt64.toNat_inj.mp) (hasc.imp ne_of_lt)
  have hsub : ids.map UInt64.toNat ⊆ List.range (10 ^ 6) := by
    intro n hn
    obtain ⟨id, hid, rfl⟩ := List.mem_map.mp hn
    exact List.mem_range.mpr (hsmall id hid)
  have hle := (hnodup.subperm hsub).length_le
  rw [List.length_map, List.length_range] at hle
  omega

/-- The SSTables of a directory by their numbers. -/
structure Files (codec : VarintCodec) (d : Disk) (tables : List Table) (ids : List UInt64) : Prop where
  names : tables.map (fun t => fileName t.name) = ids.map sstName
  ascending : ids.Pairwise (· < ·)
  small : ∀ id ∈ ids, id.toNat < 10 ^ 6
  intact : ∀ t ∈ tables, Intact codec d t

/-- These are all the .sst files of the directory. -/
def Lists (d : Disk) (ids : List UInt64) : Prop :=
  ∀ name, name ∈ ids.map sstName ↔ d.find name ≠ none ∧ DB.hasSstExtension name = true

theorem Lists.load (h : Lists d ids) (hasc : ids.Pairwise (· < ·)) (hsmall : ∀ id ∈ ids, id.toNat < 10 ^ 6)
    (options : Options) : (DB.loadSSTableList options d).1 = (ids.map sstName).map (joinPath options.dbPath) := by
  refine loadSSTableList_eq options ?_ h
  rw [List.pairwise_map]
  exact hasc.imp_of_mem fun _ hb hlt => sstName_lt hlt (hsmall _ hb)

theorem Files.exists_id (h : Files codec d tables ids) {t : Table} (ht : t ∈ tables) :
    ∃ id ∈ ids, fileName t.name = sstName id := by
  have hmem : fileName t.name ∈ ids.map sstName := by
    rw [← h.names]
    exact List.mem_map_of_mem (f := fun t => fileName t.name) ht
  obtain ⟨id, hid, he⟩ := List.mem_map.mp hmem
  exact ⟨id, hid, he.symm⟩

theorem Files.nodup (h : Files codec d tables ids) : (tables.map (fun t => fileName t.name)).Nodup := by
  rw [h.names]
  refine List.Nodup.map (fun _ _ => sstName_inj) (h.ascending.imp ne_of_lt)

theorem Files.distinct (h : Files codec d tables ids) : Distinct tables := by
  intro t ht u hu he
  exact List.inj_on_of_nodup_map h.nodup ht hu (congrArg fileName he)

theorem Files.fileName_moved (h : Files codec d tables ids) (dir : Bytes) {t : Table} (ht : t ∈ tables) :
    fileName (t.moved dir).name = fileName t.name := by
  obtain ⟨id, -, hid⟩ := h.exists_id ht
  exact Table.fileName_moved dir hid

theorem Files.moved (h : Files codec d tables ids) (dir : Bytes) :
    Files codec d (tables.map (Table.moved dir)) ids where
  names := by
    rw [List.map_map, ← h.names]
    exact List.map_congr_left fun t ht => h.fileName_moved dir ht
  ascending := h.ascending
  small := h.small
  intact := by
    intro u hu
    obtain ⟨t, ht, rfl⟩ := List.mem_map.mp hu
    obtain ⟨bytes, f, hread, htable⟩ := h.intact t ht
    refine ⟨bytes, f, ?_, htable⟩
    rw [Disk.read, h.fileName_moved dir ht]
    exact hread

theorem getLoop_torn (key : Bytes) {torn : List Bytes}
    (ht : ∀ p ∈ torn, ∃ r, SSTableReader.openFile p (d.read p) = some (false, r)) (rest : List Bytes)
    (cache : Option LRUCache) :
    DB.getLoop d key (torn ++ rest) cache = DB.getLoop d key rest cache := by
  induction torn with
  | nil => rfl
  | cons p torn ih =>
      obtain ⟨⟨r, hr⟩, hrest⟩ := List.forall_mem_cons.mp ht
      rw [List.cons_append, DB.getLoop, hr]
      exact ih hrest

theorem Files.get (h : Files codec d tables ids) {torn : List Bytes} (hp : db.sstFiles = tables.map Table.name ++ torn)
    (ht : ∀ p ∈ torn, ∃ r, SSTableReader.openFile p (d.read p) = some (false, r)) (hfew : db.sstFiles.length < 2 ^ 31)
    (hc : Cached codec tables db.blockCache) (key : Bytes) :
    (db.getFromSSTables d key).map Prod.fst =
      some ((Generations.lookup (tables.map Table.kvs).reverse key).filter fun v => !isTombstone v) := by
  have hvisited : (db.sstFiles.take (SSTableBuilder.toInt db.sstFiles.length).toNat).reverse =
      torn.reverse ++ tables.reverse.map Table.name := by
    rw [SSTableBuilder.toInt_of_lt hfew, Int.toNat_natCast, List.take_length, hp, List.reverse_append, List.map_reverse]
  obtain ⟨cache, hloop, -⟩ := getLoop_eq h.distinct h.intact key (fun t ht => List.mem_reverse.mp ht) hc
  rw [DB.getFromSSTables, hvisited, getLoop_torn key (fun p hp => ht p (List.mem_reverse.mp hp)), hloop,
    List.map_reverse]
  rfl

/-- The list of files and the cache behind the constructor. -/
structure DB.Loaded (d : Disk) (db : DB) : Prop where
  files : db.sstFiles = (DB.loadSSTableList db.options d).1
  cache : db.blockCache = some (LRUCache.create db.options.blockCacheSize)

theorem DB.Loaded.of_create {io : Io} {heights : Nat → Height} {options : Options}
    (h : DB.create io heights options d = some (d', db)) : db.Loaded d := by
  obtain ⟨⟨memTable, i⟩, -, h⟩ := Option.bind_eq_some_iff.mp h
  obtain ⟨-, rfl⟩ := Prod.mk.inj (Option.some.inj h)
  exact ⟨rfl, rfl⟩

theorem DB.Loaded.cached (h : db.Loaded d) : Cached codec [] db.blockCache := by
  rw [h.cache]
  exact ⟨[], LRUCache.Holds.create _, by simp⟩

/-- What a reopened DB answers when its directory has these files, and behind them some that cannot be opened. -/
theorem Files.get_loaded (h : Files codec d tables ids) {torn : List UInt64} (hl : Lists d (ids ++ torn))
    (hasc : (ids ++ torn).Pairwise (· < ·)) (hsmall : ∀ id ∈ torn, id.toNat < 10 ^ 6)
    (ht : ∀ id ∈ torn, ∀ p, fileName p = sstName id → ∃ r, SSTableReader.openFile p (d.read p) = some (false, r))
    (hd : db.Loaded d) (key : Bytes) :
    (db.getFromSSTables d key).map Prod.fst =
      some ((Generations.lookup (tables.map Table.kvs).reverse key).filter fun v => !isTombstone v) := by
  have hall : ∀ id ∈ ids ++ torn, id.toNat < 10 ^ 6 := List.forall_mem_append.mpr ⟨h.small, hsmall⟩
  have hload := hl.load hasc hall db.options
  have hmoved := h.moved db.options.dbPath
  have hpaths : db.sstFiles = (tables.map (Table.moved db.options.dbPath)).map Table.name ++
      torn.map (fun id => joinPath db.options.dbPath (sstName id)) := by
    rw [hd.files, hload, List.map_append, List.map_append, ← h.names, List.map_map, List.map_map, List.map_map]
    rfl
  have hopen : ∀ p ∈ torn.map (fun id => joinPath db.options.dbPath (sstName id)),
      ∃ r, SSTableReader.openFile p (d.read p) = some (false, r) := by
    intro p hp
    obtain ⟨id, hid, rfl⟩ := List.mem_map.mp hp
    exact ht id hid _ (fileName_joinPath _ (slash_notMem_sstName id))
  have hfew : db.sstFiles.length < 2 ^ 31 := by
    rw [hd.files, hload, List.length_map, List.length_map]
    exact length_ids hasc hall
  have hget := hmoved.get hpaths hopen hfew (hd.cached.mono (List.nil_subset _)) key
  rwa [List.map_map] at hget

/-- An open DB whose files are whole and in the order of their numbers, the next one included. -/
structure Stored (codec : VarintCodec) (d : Disk) (db : DB) (tables : List Table) (ids : List UInt64) : Prop where
  files : Files codec d tables ids
  lists : Lists d ids
  paths : db.sstFiles = tables.map Table.name
  cached : Cached codec tables db.blockCache
  new : ∀ id ∈ ids, id < db.nextSstId
  small : db.nextSstId.toNat < 10 ^ 6
  short : Short codec (Generations.live isTombstone (Generations.merge (tables.map Table.kvs)))

/-- The directory where DoCompaction is cut off. Behind the early return it writes the new file
and then removes the old ones, in the order of the list. -/
inductive CompactionCut (codec : VarintCodec) (d : Disk) (db : DB) : Disk → Prop where
  | absent : CompactionCut codec d db d
  | torn {bytes : Bytes} {r : SSTableReader} : 1 < db.sstFiles.length →
      SSTableReader.openFile db.nextPath (some bytes) = some (false, r) →
        CompactionCut codec d db (d.store db.nextPath bytes)
  | complete {merged : SortedMap Bytes Bytes} {file : Bytes} (removed : Nat) : 1 < db.sstFiles.length →
      DB.mergeLoop d db.sstFiles .empty = some merged →
      SSTableBuilder.build codec (Generations.live isTombstone merged).entries = some file →
      CompactionCut codec d db ((db.sstFiles.take removed).foldl Disk.remove (d.store db.nextPath file))

/-- The end of DoCompaction is one of these points. -/
theorem CompactionCut.of_doCompaction (h : db.doCompaction codec {} d = some (d', db')) :
    CompactionCut codec d db d' := by
  rcases doCompaction_cases h with ⟨-, rfl, -⟩ | ⟨hmany, merged, file, cache, hmerge, hbuild, rfl, -⟩
  · exact .absent
  · have hall : CompactionCut codec d db _ := .complete db.sstFiles.length hmany hmerge hbuild
    rwa [List.take_length] at hall

namespace Stored

theorem get (h : Stored codec d db tables ids) (key : Bytes) :
    (db.getFromSSTables d key).map Prod.fst =
      some ((Generations.lookup (tables.map Table.kvs).reverse key).filter fun v => !isTombstone v) := by
  have hlen : db.sstFiles.length < 2 ^ 31 := by
    have hids := congrArg List.length h.files.names
    rw [List.length_map, List.length_map] at hids
    rw [h.paths, List.length_map, hids]
    exact length_ids h.files.ascending h.files.small
  have hp : db.sstFiles = tables.map Table.name ++ [] := by rw [h.paths, List.append_nil]
  exact h.files.get hp (by simp) hlen h.cached key

theorem ascending_next (h : Stored codec d db tables ids) {is : List UInt64} (hs : is.Sublist ids) :
    (is ++ [db.nextSstId]).Pairwise (· < ·) := by
  rw [List.pairwise_append]
  refine ⟨h.files.ascending.sublist hs, List.pairwise_singleton _ _, ?_⟩
  intro a ha b hb
  rw [List.mem_singleton.mp hb]
  exact h.new a (hs.subset ha)

theorem next_notMem (h : Stored codec d db tables ids) : sstName db.nextSstId ∉ ids.map sstName := by
  intro hmem
  obtain ⟨id, hid, he⟩ := List.mem_map.mp hmem
  have hlt := h.new id hid
  rw [sstName_inj he] at hlt
  exact lt_irrefl _ hlt

theorem notMem_drop (h : Stored codec d db tables ids) {n : Nat} {name : Bytes} (hn : name ∈ (ids.take n).map sstName) :
    name ∉ (ids.drop n).map sstName := by
  have hnodup : ((ids.take n).map sstName ++ (ids.drop n).map sstName).Nodup := by
    rw [← List.map_append, List.take_append_drop]
    exact List.Nodup.map (fun _ _ => sstName_inj) (h.files.ascending.imp ne_of_lt)
  exact fun hm => (List.nodup_append.mp hnodup).2.2 _ hn _ hm rfl

theorem find_removed (h : Stored codec d db tables ids) (bytes : Bytes) (n : Nat) (name : Bytes) :
    ((db.sstFiles.take n).foldl Disk.remove (d.store db.nextPath bytes)).find name =
      if name ∈ (ids.take n).map sstName then none
      else if name = sstName db.nextSstId then some bytes else d.find name := by
  have hnames : (ids.take n).map sstName = (db.sstFiles.take n).map fileName := by
    rw [h.paths, List.map_take, ← h.files.names, List.map_take, List.map_map]
    rfl
  have hiff : (∃ q ∈ db.sstFiles.take n, name = fileName q) ↔ name ∈ (db.sstFiles.take n).map fileName := by
    rw [List.mem_map]
    exact exists_congr fun q => and_congr_right' eq_comm
  rw [Disk.find_removes, Disk.find_store, fileName_nextPath, hnames]
  exact if_congr hiff rfl rfl

theorem lists_removed (h : Stored codec d db tables ids) (bytes : Bytes) (n : Nat) :
    Lists ((db.sstFiles.take n).foldl Disk.remove (d.store db.nextPath bytes)) (ids.drop n ++ [db.nextSstId]) := by
  intro name
  have hold := h.lists name
  rw [← List.take_append_drop n ids, List.map_append, List.mem_append] at hold
  rw [h.find_removed, List.map_append, List.mem_append, List.map_singleton, List.mem_singleton]
  by_cases htake : name ∈ (ids.take n).map sstName
  · rw [if_pos htake]
    constructor
    · rintro (hdrop | rfl)
      · exact absurd hdrop (h.notMem_drop htake)
      · exact absurd (List.map_subset _ (List.take_subset n ids) htake) h.next_notMem
    · rintro ⟨hne, -⟩
      exact absurd rfl hne
  · rw [if_neg htake]
    by_cases hn : name = sstName db.nextSstId
    · subst hn
      rw [if_pos rfl]
      exact ⟨fun _ => ⟨Option.some_ne_none _, hasSstExtension_sstName _⟩, fun _ => .inr rfl⟩
    · rw [if_neg hn, ← hold]
      exact ⟨fun hm => .inr (hm.resolve_right hn), fun hm => .inl (hm.resolve_left htake)⟩

theorem intact_removed (h : Stored codec d db tables ids) (bytes : Bytes) (n : Nat) {t : Table}
    (ht : t ∈ tables.drop n) :
    Intact codec ((db.sstFiles.take n).foldl Disk.remove (d.store db.nextPath bytes)) t := by
  have hmem : fileName t.name ∈ (ids.drop n).map sstName := by
    rw [List.map_drop, ← h.files.names, ← List.map_drop]
    exact List.mem_map_of_mem (f := fun t => fileName t.name) ht
  have htake : fileName t.name ∉ (ids.take n).map sstName := fun hm => h.notMem_drop hm hmem
  have hne : fileName t.name ≠ sstName db.nextSstId := by
    intro he
    apply h.next_notMem
    rw [← he]
    exact List.map_subset _ (List.drop_subset n ids) hmem
  obtain ⟨bytes', f, hread, htable⟩ := h.files.intact t (List.drop_subset n tables ht)
  refine ⟨bytes', f, ?_, htable⟩
  rw [Disk.read, h.find_removed, if_neg htake, if_neg hne]
  exact hread

theorem files_drop (h : Stored codec d db tables ids) (bytes : Bytes) (n : Nat) :
    Files codec ((db.sstFiles.take n).foldl Disk.remove (d.store db.nextPath bytes)) (tables.drop n) (ids.drop n) where
  names := by rw [List.map_drop, List.map_drop, h.files.names]
  ascending := h.files.ascending.sublist (List.drop_sublist n ids)
  small id hid := h.files.small id (List.drop_subset n ids hid)
  intact _ ht := h.intact_removed bytes n ht

end Stored

theorem Represents.stored_of_small {s : Session} (h : Represents codec s tables d db)
    (hwrap : tables.length ≤ db.nextSstId.toNat) (hsmall : db.nextSstId.toNat < 10 ^ 6)
    (hshort : Short codec (Generations.live isTombstone (Generations.merge s.gens.older))) :
    ∃ ids, Stored codec d db tables ids := by
  obtain ⟨first, hnames, hnext⟩ := h.names
  have hfirst : first.toNat + tables.length = db.nextSstId.toNat := by
    have hsum := congrArg UInt64.toNat hnext
    rw [UInt64.toNat_add, UInt64.toNat_ofNat'] at hsum
    have := first.toNat_lt
    omega
  have hnum (i : Nat) (hi : i ≤ tables.length) : (first + UInt64.ofNat i).toNat = first.toNat + i := by
    rw [UInt64.toNat_add, UInt64.toNat_ofNat']
    omega
  have hmap : tables.map (fun t => fileName t.name) =
      ((List.range tables.length).map fun i => first + UInt64.ofNat i).map sstName := by
    rw [hnames, List.map_map]
    rfl
  have hid : ∀ id ∈ (List.range tables.length).map (fun i => first + UInt64.ofNat i),
    id.toNat < db.nextSstId.toNat := by
    intro id hid
    obtain ⟨i, hi, rfl⟩ := List.mem_map.mp hid
    have hlt := List.mem_range.mp hi
    rw [hnum i hlt.le]
    omega
  refine ⟨_, ⟨hmap, ?_, fun id hm => lt_trans (hid id hm) hsmall, h.stored⟩, ?_, h.paths, h.cached,
    fun id hm => UInt64.lt_iff_toNat_lt.mpr (hid id hm), hsmall, by rw [← h.older]; exact hshort⟩
  · rw [List.pairwise_map]
    refine List.pairwise_lt_range.imp_of_mem ?_
    intro i j hi hj hlt
    rw [UInt64.lt_iff_toNat_lt, hnum i (List.mem_range.mp hi).le, hnum j (List.mem_range.mp hj).le]
    omega
  · intro name
    rw [← hmap]
    constructor
    · intro hm
      obtain ⟨t, ht, rfl⟩ := List.mem_map.mp hm
      obtain ⟨bytes, f, hread, -⟩ := h.stored t ht
      obtain ⟨id, hid⟩ := h.fileName_mem ht
      refine ⟨?_, by rw [hid]; exact hasSstExtension_sstName id⟩
      rw [Ne, ← Disk.read, hread]
      exact Option.some_ne_none _
    · rintro ⟨hfind, hext⟩
      rcases h.files name hfind with rfl | ⟨t, ht, rfl⟩
      · exact absurd hext (by decide)
      · exact List.mem_map_of_mem (f := fun t => fileName t.name) ht

/-- Wherever DoCompaction is cut off, the files that are left give the same answers. -/
theorem compaction_crash_safe (h : Stored codec d db tables ids) (hcut : CompactionCut codec d db d')
    (hd : db'.Loaded d') (key : Bytes) : ∃ answer, (db.getFromSSTables d key).map Prod.fst = some answer ∧
      (db'.getFromSSTables d' key).map Prod.fst = some answer := by
  refine ⟨_, h.get key, ?_⟩
  cases hcut with
  | absent =>
      have hlists : Lists d (ids ++ []) := by rw [List.append_nil]; exact h.lists
      have hasc : (ids ++ []).Pairwise (· < ·) := by rw [List.append_nil]; exact h.files.ascending
      exact h.files.get_loaded hlists hasc (by simp) (by simp) hd key
  | @torn bytes r hmany hopen =>
      have hfiles := h.files_drop bytes 0
      refine hfiles.get_loaded (h.lists_removed bytes 0) (h.ascending_next (List.drop_sublist 0 ids)) ?_ ?_ hd key
      · intro id hid
        rw [List.mem_singleton.mp hid]
        exact h.small
      · intro id hid p hp
        rw [List.mem_singleton.mp hid, ← fileName_nextPath] at hp
        have hread : (d.store db.nextPath bytes).read p = some bytes := by rw [Disk.read_store, if_pos hp]
        refine ⟨{ r with filename := p }, ?_⟩
        show SSTableReader.openFile p ((d.store db.nextPath bytes).read p) = _
        rw [hread, openFile_filename p db.nextPath, hopen]
        rfl
  | @complete merged file removed hmany hmerge hbuild =>
      have hmerged : merged = Generations.merge (tables.map Table.kvs) := by
        rw [h.paths, mergeLoop_eq h.files.distinct h.files.intact (fun _ ht => ht)] at hmerge
        exact (Option.some.inj hmerge).symm
      subst hmerged
      obtain ⟨t, hname, hkvs, hstored⟩ := exists_table hbuild (h.short file hbuild) db.nextPath
      have hold := h.files_drop file removed
      have hasc := h.ascending_next (List.drop_sublist removed ids)
      have hsmall : ∀ id ∈ ids.drop removed ++ [db.nextSstId], id.toNat < 10 ^ 6 :=
        List.forall_mem_append.mpr ⟨hold.small, List.forall_mem_singleton.mpr h.small⟩
      have hnext : sstName db.nextSstId ∉ (ids.take removed).map sstName := fun hm =>
        h.next_notMem (List.map_subset _ (List.take_subset removed ids) hm)
      have hnew : Intact codec ((db.sstFiles.take removed).foldl Disk.remove (d.store db.nextPath file)) t := by
        apply hstored
        rw [Disk.read, h.find_removed, fileName_nextPath, if_neg hnext, if_pos rfl]
      have hfiles : Files codec ((db.sstFiles.take removed).foldl Disk.remove (d.store db.nextPath file))
          (tables.drop removed ++ [t]) (ids.drop removed ++ [db.nextSstId]) := by
        refine ⟨?_, hasc, hsmall, List.forall_mem_append.mpr ⟨hold.intact, List.forall_mem_singleton.mpr hnew⟩⟩
        rw [List.map_append, List.map_append, hold.names, List.map_singleton, List.map_singleton, hname,
          fileName_nextPath]
      have hlists := h.lists_removed file removed
      rw [← List.append_nil (_ ++ [db.nextSstId])] at hlists hasc
      rw [hfiles.get_loaded hlists hasc (by simp) (by simp) hd key, List.map_append, List.map_drop, List.map_singleton,
        hkvs, List.reverse_append, List.reverse_singleton, List.singleton_append, Generations.lookup_compacted]

theorem compaction_crash_safe_two : ∃ (d d' : Disk) (db db' : DB) (answer : Option Bytes), db.sstFiles.length = 2 ∧
    CompactionCut .base128 d db d' ∧ db'.Loaded d' ∧ (db.getFromSSTables d [1]).map Prod.fst = some answer ∧
      (db'.getFromSSTables d' [1]).map Prod.fst = some answer := by
  let older : SortedMap Bytes Bytes := SortedMap.empty.insert [1] [2]
  let newer : SortedMap Bytes Bytes := SortedMap.empty.insert [1] []
  let both := Generations.live isTombstone (Generations.merge [older, newer])
  have hbuild : ([older, newer, both].all fun m => (SSTableBuilder.build .base128 m.entries).any
      (fun file => decide (file.length < 2 ^ 32))) = true := by decide +kernel
  simp only [List.all_cons, List.all_nil, Bool.and_true, Bool.and_eq_true, Option.any_eq_true, decide_eq_true_eq] at hbuild
  obtain ⟨⟨file₁, hb₁, hs₁⟩, ⟨file₂, hb₂, hs₂⟩, ⟨file₃, hb₃, hs₃⟩⟩ := hbuild
  let path (id : UInt64) : Bytes := ({} : Options).dbPath ++ slash :: sstName id
  have hpath (id : UInt64) : fileName (path id) = sstName id := fileName_append (slash_notMem_sstName id)
  have hne : sstName 1 ≠ sstName 2 := fun h => absurd (sstName_inj h) (by decide)
  obtain ⟨t₁, hname₁, hkvs₁, hstored₁⟩ := exists_table hb₁ hs₁ (path 1)
  obtain ⟨t₂, hname₂, hkvs₂, hstored₂⟩ := exists_table hb₂ hs₂ (path 2)
  let d : Disk := (Disk.store .empty (path 1) file₁).store (path 2) file₂
  have hfind (name : Bytes) : d.find name = if name = sstName 2 then some file₂ else if name = sstName 1 then some file₁ else none := by
    rw [Disk.find_store, Disk.find_store, hpath, hpath]
    rfl
  let db : DB := ⟨{}, 3, MemTable.create, LogWriter.create true none, none, [path 1, path 2]⟩
  have h : Stored .base128 d db [t₁, t₂] [1, 2] := by
    refine ⟨⟨?_, by decide, by simp, ?_⟩, ?_, ?_, trivial, by simp [db], by simp [db], ?_⟩
    · simp [hname₁, hname₂, hpath]
    · intro t ht
      rcases List.mem_pair.mp ht with rfl | rfl
      · apply hstored₁
        rw [Disk.read, hpath, hfind, if_neg hne, if_pos rfl]
      · apply hstored₂
        rw [Disk.read, hpath, hfind, if_pos rfl]
    · intro name
      rw [hfind]
      by_cases h₂ : name = sstName 2
      · simp [h₂, hasSstExtension_sstName]
      · by_cases h₁ : name = sstName 1
        · simp [h₁, hne, hasSstExtension_sstName]
        · simp [h₁, h₂]
    · simp [db, hname₁, hname₂]
    · intro file hfile
      rw [List.map_cons, List.map_cons, hkvs₁, hkvs₂, List.map_nil] at hfile
      exact Option.some.inj (hb₃.symm.trans hfile) ▸ hs₃
  have hmerge : DB.mergeLoop d db.sstFiles .empty = some (Generations.merge [older, newer]) := by
    have hall := mergeLoop_eq h.files.distinct h.files.intact (fun _ ht => ht) .empty
    rw [List.map_cons, List.map_cons, List.map_cons, List.map_cons, hname₁, hname₂, hkvs₁, hkvs₂] at hall
    exact hall
  have hcut : CompactionCut .base128 d db _ := .complete 1 (by decide) hmerge hb₃
  generalize (db.sstFiles.take 1).foldl Disk.remove (d.store db.nextPath file₃) = d' at hcut
  let db' : DB := { db with sstFiles := (DB.loadSSTableList {} d').1, blockCache := some (LRUCache.create 128) }
  have hloaded : db'.Loaded d' := ⟨rfl, rfl⟩
  obtain ⟨answer, hget⟩ := compaction_crash_safe h hcut hloaded [1]
  exact ⟨d, d', db, db', answer, rfl, hcut, hloaded, hget⟩

end MiniStorage.Engine
