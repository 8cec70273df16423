import MiniStorage.Engine.CrashSafety
import MiniStorage.Engine.DbMap
import MiniStorage.Engine.ReaderSafety

namespace MiniStorage.Engine

variable {codec : VarintCodec} {allowed : DB → Prop} {d d' : Disk} {db db' : DB} {cache cache' : Option LRUCache}

/-- The states of one open DB, between its calls and also between the readers that a Get asks one after the other.
Each call starts from a state that is `allowed`. -/
inductive Opened (codec : VarintCodec) (allowed : DB → Prop) : Disk → DB → Prop where
  | create {heights : Nat → Height} {options : Options} {d d' : Disk} {db : DB} :
      DB.create {} heights options d = some (d', db) → Opened codec allowed d' db
  | call {d d' : Disk} {db db' : DB} {c : Call} {a : Answer} :
      Opened codec allowed d db → allowed db → db.call codec d c = some (a, d', db') → Opened codec allowed d' db'
  | ask {d : Disk} {db : DB} {path key : Bytes} {r r' : SSTableReader} {found : Option Bytes}
      {cache : Option LRUCache} :
      Opened codec allowed d db → path ∈ db.sstFiles → SSTableReader.openFile path (d.read path) = some (true, r) →
      r.get db.blockCache key = some (found, r', cache) → Opened codec allowed d { db with blockCache := cache }

/-- The next file does not take the name of one that is listed. -/
def NameFree (db : DB) : Prop := ∀ path ∈ db.sstFiles, fileName path ≠ sstName db.nextSstId

/-- Two blocks of this file that the index puts at one offset have one size there. -/
def OffsetsTell (file : Bytes) : Prop :=
  ∀ t, footerOf file = some t → ∀ es, IndexText (indexCrc file t) (indexData file t) es →
    ∀ e e', Kept es e → Kept es e' → e.offset = e'.offset → e.size = e'.size

/-- The readers of this file answer with the cache as without one, and what the cache has under the key of a block
is this block. -/
structure Transparent (d : Disk) (path : Bytes) (cache : Option LRUCache) : Prop where
  get : ∀ r, SSTableReader.openFile path (d.read path) = some (true, r) →
    ∀ key, (r.get cache key).map Prod.fst = (r.get none key).map Prod.fst
  entries : ∀ r, SSTableReader.openFile path (d.read path) = some (true, r) → ∀ p ∈ r.index.entries,
    Stores (fun cacheKey data => cacheKey = makeCacheKey path p.2.offset.toNat →
      (r.readDataBlock none p.2.offset p.2.size).map Prod.fst = some (some data)) cache

namespace SSTableReader

variable {P : Bytes → BolckData → Prop}

/-- What a Get puts into the cache is a block of the index. -/
theorem stores_get {r r' : SSTableReader} {key : Bytes} {found : Option Bytes} (hc : Stores P cache)
    (hP : ∀ p ∈ r.index.entries, ∀ data, (r.readDataBlock none p.2.offset p.2.size).map Prod.fst = some (some data) →
      P (makeCacheKey r.filename p.2.offset.toNat) data)
    (h : r.get cache key = some (found, r', cache')) : Stores P cache' := by
  rcases r.get_cases key with hnone | ⟨p, hp, hget⟩
  · rw [hnone] at h
    obtain ⟨-, he⟩ := Prod.mk.inj (Option.some.inj h)
    rw [← (Prod.mk.inj he).2]
    exact hc
  · rw [hget] at h
    obtain ⟨⟨entries, r₁, cache₁⟩, hread, he⟩ := Option.map_eq_some_iff.mp h
    obtain ⟨-, he⟩ := Prod.mk.inj he
    obtain ⟨-, rfl⟩ := Prod.mk.inj he
    rcases r.readDataBlock_cases hc p.2.offset p.2.size with
      ⟨data, cache₂, -, hc₂, hhit⟩ | ⟨hfault, -⟩ | ⟨out, r₂, cache₂, hmiss, hnone, hc₂, -⟩
    · rw [hhit] at hread
      obtain ⟨-, he⟩ := Prod.mk.inj (Option.some.inj hread)
      rw [← (Prod.mk.inj he).2]
      exact hc₂
    · rw [hfault] at hread
      cases hread
    · rw [hmiss] at hread
      obtain ⟨-, he⟩ := Prod.mk.inj (Option.some.inj hread)
      rw [← (Prod.mk.inj he).2]
      apply hc₂
      rintro data rfl
      exact hP p hp data (by rw [hnone]; rfl)

theorem get_eq_get_none {r : SSTableReader} (hc : Stores P cache)
    (hP : ∀ p ∈ r.index.entries, ∀ data, P (makeCacheKey r.filename p.2.offset.toNat) data →
      (r.readDataBlock none p.2.offset p.2.size).map Prod.fst = some (some data)) (key : Bytes) :
    (r.get cache key).map Prod.fst = (r.get none key).map Prod.fst := by
  rcases r.get_cases key with hnone | ⟨p, hp, hget⟩
  · rw [hnone, hnone]
    rfl
  · rw [hget, hget]
    rcases r.readDataBlock_cases hc p.2.offset p.2.size with
      ⟨data, cache₁, hdata, -, hhit⟩ | ⟨hfault, hnone⟩ | ⟨out, r₁, cache₁, hmiss, hnone, -⟩
    · obtain ⟨⟨out, rest⟩, hread, hout⟩ := Option.map_eq_some_iff.mp (hP p hp data hdata)
      obtain rfl : out = some data := hout
      rw [hhit, hread]
      rfl
    · rw [hfault, hnone]
    · rw [hmiss, hnone]
      rfl

end SSTableReader

/-- A block that the index of one of these files has, under its key. -/
def BlockOf (d : Disk) (paths : List Bytes) (cacheKey : Bytes) (data : BolckData) : Prop :=
  ∃ path ∈ paths, ∃ r, SSTableReader.openFile path (d.read path) = some (true, r) ∧ ∃ p ∈ r.index.entries,
    cacheKey = makeCacheKey path p.2.offset.toNat ∧ (r.readDataBlock none p.2.offset p.2.size).map Prod.fst =
      some (some data)

theorem BlockOf.mono {paths paths' : List Bytes} {cacheKey : Bytes} {data : BolckData}
    (h : BlockOf d paths cacheKey data) (hsub : paths ⊆ paths') (hread : ∀ path ∈ paths, d'.read path = d.read path) :
    BlockOf d' paths' cacheKey data := by
  obtain ⟨path, hpath, r, hopen, hrest⟩ := h
  exact ⟨path, hsub hpath, r, by rw [hread path hpath]; exact hopen, hrest⟩

/-- Nothing else is in the cache. -/
structure Coherent (d : Disk) (db : DB) : Prop where
  listed : ∀ path ∈ db.sstFiles, fileName path ≠ logName
  cached : Stores (BlockOf d db.sstFiles) db.blockCache

theorem filename_of_openFile {path : Bytes} {file : Option Bytes} {ok : Bool} {r : SSTableReader}
    (h : SSTableReader.openFile path file = some (ok, r)) : r.filename = path := by
  rw [openFile_filename path path] at h
  obtain ⟨p, -, he⟩ := Option.map_eq_some_iff.mp h
  rw [← (Prod.mk.inj he).2]

theorem stores_ask {paths : List Bytes} {path key : Bytes} {r r' : SSTableReader} {found : Option Bytes}
    (hc : Stores (BlockOf d paths) cache) (hpath : path ∈ paths)
    (hopen : SSTableReader.openFile path (d.read path) = some (true, r))
    (hget : r.get cache key = some (found, r', cache')) : Stores (BlockOf d paths) cache' := by
  refine SSTableReader.stores_get hc ?_ hget
  intro p hp data hdata
  rw [filename_of_openFile hopen]
  exact ⟨path, hpath, r, hopen, p, hp, rfl, hdata⟩

theorem stores_getLoop {paths visited : List Bytes} {key : Bytes} {value : Option Bytes} (hsub : visited ⊆ paths)
    (hc : Stores (BlockOf d paths) cache) (h : DB.getLoop d key visited cache = some (value, cache')) :
    Stores (BlockOf d paths) cache' := by
  induction visited generalizing cache with
  | nil =>
      obtain ⟨-, rfl⟩ := Prod.mk.inj (Option.some.inj h)
      exact hc
  | cons path visited ih =>
      have hrest : visited ⊆ paths := fun _ hp => hsub (List.mem_cons_of_mem _ hp)
      obtain ⟨⟨ok, r⟩, hopen, h⟩ := Option.bind_eq_some_iff.mp h
      cases ok with
      | false => exact ih hrest hc h
      | true =>
          obtain ⟨⟨found, r', cache₁⟩, hget, h⟩ := Option.bind_eq_some_iff.mp h
          have hc₁ := stores_ask hc (hsub List.mem_cons_self) hopen hget
          cases found with
          | none => exact ih hrest hc₁ h
          | some value =>
              obtain ⟨-, rfl⟩ := Prod.mk.inj (Option.some.inj h)
              exact hc₁

theorem sstExtension_suffix {options : Options} {path : Bytes} (h : path ∈ (DB.loadSSTableList options d).1) :
    sstExtension <:+ path := by
  rw [DB.loadSSTableList, List.mem_mergeSort] at h
  obtain ⟨name, hname, rfl⟩ := List.mem_map.mp h
  have hext : sstExtension <:+ name := by
    have h := (List.mem_filter.mp hname).2
    rw [DB.hasSstExtension, Bool.and_eq_true] at h
    exact List.isSuffixOf_iff_suffix.mp h.2
  rw [joinPath]
  split
  · exact hext.trans (List.suffix_append _ _)
  · exact hext.trans ((List.suffix_cons slash name).trans (List.suffix_append _ _))

theorem fileName_ne_logName {path : Bytes} (h : sstExtension <:+ path) : fileName path ≠ logName := by
  intro hlog
  have hsuffix : logName <:+ path := by
    rw [← hlog, fileName, ← List.reverse_prefix, List.reverse_reverse]
    exact List.takeWhile_prefix _
  -- one ends in 't' and the other in 'g'
  obtain ⟨front, hfront⟩ := h
  obtain ⟨front', hfront'⟩ := hsuffix
  have hlast := congrArg List.getLast? (hfront.trans hfront'.symm)
  rw [List.getLast?_append_of_ne_nil _ (by decide), List.getLast?_append_of_ne_nil _ (by decide)] at hlast
  revert hlast
  decide

namespace Coherent

theorem congr (h : Coherent d db) (hsame : db.SameFiles db') : Coherent d db' := by
  refine ⟨?_, ?_⟩
  · rw [hsame.sstFiles]
    exact h.listed
  · rw [hsame.sstFiles, hsame.blockCache]
    exact h.cached

/-- The cache is empty behind a compaction. -/
theorem doCompaction (h : Coherent d db) (hcall : db.doCompaction codec {} d = some (d', db')) : Coherent d' db' := by
  rcases doCompaction_cases hcall with ⟨-, rfl, rfl⟩ | ⟨hmany, merged, -, -, hmerge, -⟩
  · exact h
  · obtain ⟨cache, hclear, hc⟩ := h.cached.clear (BlockOf d' [db.nextPath])
    rw [doCompaction_eq {} (not_le.mpr hmany) hmerge hclear] at hcall
    obtain ⟨file, -, he⟩ := Option.map_eq_some_iff.mp hcall
    obtain ⟨-, rfl⟩ := Prod.mk.inj he
    refine ⟨fun path hpath => ?_, hc⟩
    rw [List.mem_singleton.mp hpath, fileName_nextPath]
    exact sstName_ne_logName _

/-- The new file leaves the listed ones as they are. -/
theorem flushMemTable (h : Coherent d db) (hfree : NameFree db) (hcall : db.flushMemTable codec {} d = some (d', db')) :
    Coherent d' db' := by
  rcases flushMemTable_cases hcall with ⟨rfl, rfl⟩ | ⟨bytes, memTable, hcall⟩
  · exact h
  · have hread : ∀ path ∈ db.sstFiles, (((d.store db.nextPath bytes).remove (DB.generateLogFilename db.options)).store
        (DB.generateLogFilename db.options) []).read path = d.read path := by
      intro path hpath
      have hlog : fileName path ≠ fileName (DB.generateLogFilename db.options) := by
        rw [fileName_log]
        exact h.listed path hpath
      have hnext : fileName path ≠ fileName db.nextPath := by
        rw [fileName_nextPath]
        exact hfree path hpath
      rw [Disk.read_store, if_neg hlog, Disk.read_remove, if_neg hlog, Disk.read_store, if_neg hnext]
    have hflushed : Coherent (((d.store db.nextPath bytes).remove (DB.generateLogFilename db.options)).store
        (DB.generateLogFilename db.options) []) { db with
          nextSstId := db.nextSstId + 1, memTable := memTable, logWrite := LogWriter.create true none,
          sstFiles := db.sstFiles ++ [db.nextPath] } := by
      refine ⟨fun path hpath => ?_, h.cached.mono fun _ _ hblock => hblock.mono (List.subset_append_left _ _) hread⟩
      rcases List.mem_append.mp hpath with hpath | hpath
      · exact h.listed path hpath
      · rw [List.mem_singleton.mp hpath, fileName_nextPath]
        exact sstName_ne_logName _
    rw [DB.maybeScheduleCompaction] at hcall
    split at hcall
    · exact hflushed.doCompaction hcall
    · obtain ⟨rfl, rfl⟩ := Prod.mk.inj (Option.some.inj hcall)
      exact hflushed

theorem call (h : Coherent d db) (hfree : NameFree db) {c : Call} {a : Answer}
    (hcall : db.call codec d c = some (a, d', db')) :
    Coherent d' db' := by
  cases DB.Effect.of_call hcall with
  | keep hsame => exact h.congr hsame
  | ask hloop =>
      refine ⟨h.listed, stores_getLoop ?_ h.cached hloop⟩
      intro path hpath
      exact List.mem_of_mem_take (List.mem_reverse.mp hpath)
  | flush hsame hflush =>
      have hfree' : NameFree _ := fun path hpath => by
        rw [hsame.sstFiles] at hpath
        rw [hsame.nextSstId]
        exact hfree path hpath
      exact (h.congr hsame).flushMemTable hfree' hflush
  | compact hcompact => exact h.doCompaction hcompact

theorem of_create {heights : Nat → Height} {options : Options} (h : DB.create {} heights options d = some (d', db)) :
    Coherent d' db := by
  have hloaded := DB.Loaded.of_create h
  refine ⟨fun path hpath => ?_, ?_⟩
  · rw [hloaded.files] at hpath
    exact fileName_ne_logName (sstExtension_suffix hpath)
  · rw [hloaded.cache]
    exact ⟨[], LRUCache.Holds.create _, by simp⟩

end Coherent

theorem Opened.coherent (h : Opened codec NameFree d db) : Coherent d db := by
  induction h with
  | create hcreate => exact .of_create hcreate
  | call h hfree hcall ih => exact ih.call hfree hcall
  | ask h hpath hopen hget ih => exact ⟨ih.listed, stores_ask ih.cached hpath hopen hget⟩

/-- An index is what the text of the file says. -/
theorem SSTableReader.index_of_openFile {path file : Bytes} {r : SSTableReader}
    (h : openFile path (some file) = some (true, r)) :
    ∃ t es, footerOf file = some t ∧ 4 ≤ t.totalIndexSize.toNat ∧ IndexText (indexCrc file t) (indexData file t) es ∧
      r.index = es.foldl IndexRecord.put .empty := by
  rcases Nat.lt_or_ge file.length 24 with hshort | hlen
  · simp only [openFile, hshort, if_true] at h
    cases h
  rcases Nat.lt_or_ge (file.length - 24) (2 ^ 63) with hnear | hfar
  · obtain ⟨t, ht⟩ := Option.isSome_iff_exists.mp (footerOf_isSome hlen)
    rcases Nat.lt_or_ge t.totalIndexSize.toNat 4 with hsmall | hsize
    · rw [openFile_eq_none hlen hnear ht hsmall] at h
      cases h
    obtain ⟨r₀, -, hopen⟩ := openFile_eq path hlen hnear ht hsize
    rw [hopen] at h
    split at h
    next => cases h
    next =>
      have hdata : (indexData file t).length ≤ t.totalIndexSize.toNat - 4 := List.length_take_le _ _
      have hfour := length_indexCrc file hsize
      obtain ⟨m, hm, h⟩ := Option.bind_eq_some_iff.mp h
      obtain ⟨es, htext⟩ := indexText_of_parseIndex hfour hdata hm
      rw [parseIndex_of_indexText hfour htext hdata] at hm
      refine ⟨t, es, ht, hsize, htext, ?_⟩
      rw [← (Prod.mk.inj (Option.some.inj h)).2, ← Option.some.inj hm]
  · rw [openFile_far hlen hfar] at h
    cases h

/-- Where the offsets tell the blocks apart, the block under a key is the only one that can be asked for with it. -/
theorem Coherent.transparent (h : Coherent d db) {path : Bytes}
    (htell : ∀ file, d.read path = some file → OffsetsTell file) :
    Transparent d path db.blockCache := by
  have hblock {r : SSTableReader} (hopen : SSTableReader.openFile path (d.read path) = some (true, r))
      {p : Bytes × BlockHandle} (hp : p ∈ r.index.entries) {data : BolckData}
      (hdata : BlockOf d db.sstFiles (makeCacheKey path p.2.offset.toNat) data) :
      (r.readDataBlock none p.2.offset p.2.size).map Prod.fst = some (some data) := by
    obtain ⟨path', -, r', hopen', q, hq, hkey, hread⟩ := hdata
    obtain ⟨rfl, hoff⟩ := makeCacheKey_inj hkey
    obtain rfl : r = r' := (Prod.mk.inj (Option.some.inj (hopen.symm.trans hopen'))).2
    cases hfile : d.read path with
    | none =>
        rw [hfile] at hopen
        cases hopen
    | some file =>
        rw [hfile] at hopen
        obtain ⟨t, es, ht, -, htext, hindex⟩ := SSTableReader.index_of_openFile hopen
        rw [hindex] at hp hq
        obtain ⟨e, hkept, -, he⟩ := mem_foldl_put.mp hp
        obtain ⟨e', hkept', -, he'⟩ := mem_foldl_put.mp hq
        rw [← he, ← he', UInt32.toNat_toUInt64, UInt32.toNat_toUInt64] at hoff
        have hsize := htell file hfile t ht es htext e e' hkept hkept' (UInt32.toNat_inj.mp hoff)
        rw [← he, UInt32.toNat_inj.mp hoff, hsize, he']
        exact hread
  refine ⟨fun r hopen key => ?_, fun r hopen p hp => ?_⟩
  · refine SSTableReader.get_eq_get_none h.cached ?_ key
    rw [filename_of_openFile hopen]
    exact fun p hp data hdata => hblock hopen hp hdata
  · refine h.cached.mono ?_
    rintro cacheKey data hdata rfl
    exact hblock hopen hp hdata

theorem block_cache_transparent (h : Opened codec NameFree d db) {path : Bytes}
    (htell : ∀ file, d.read path = some file → OffsetsTell file) : Transparent d path db.blockCache :=
  h.coherent.transparent htell

/-- A reader opens on every table with room for the index. The filter is never too long. -/
theorem IsTable.exists_reader {file : Bytes} {blocks : List BolckData} {f : BloomFilter}
    (h : IsTable codec file blocks f) (hasc : Ascending blocks) (hkeys : ∀ p ∈ blocks.flatten, p.1.length < 2 ^ 32)
    (hflen : f.data.length ≤ 2 ^ 28) (hdata : (dataBytes codec blocks).length < 2 ^ 62)
    (hindex : (indexBytes codec (extents codec 0 blocks)).length + 4 < 2 ^ 32) (path : Bytes) :
    ∃ r, SSTableReader.openFile path (some file) = some (true, r) ∧ r.filename = path ∧ r.file.failed = false ∧
      r.file.bytes = file ∧ r.index.entries = (extents codec 0 blocks).map Extent.entry ∧ r.filter = some f := by
  have hfilter : (filterBytes f).length < 2 ^ 32 := by
    rw [filterBytes, List.length_cons]
    omega
  obtain ⟨-, -, hlen⟩ := h.footer
  exact openFile_isTable h hasc hkeys (by omega) hindex hfilter path

/-- A table whose positions can all be recorded is one of these files. -/
theorem IsTable.offsetsTell {file : Bytes} {blocks : List BolckData} {f : BloomFilter} (h : IsTable codec file blocks f)
    (hasc : Ascending blocks) (hflen : f.data.length ≤ 2 ^ 28) (hfit : PositionsFit codec blocks) :
    OffsetsTell file := by
  have hkeys : ∀ p ∈ blocks.flatten, p.1.length < 2 ^ 32 := by
    intro p hp
    obtain ⟨block, hblock, hp⟩ := List.mem_flatten.mp hp
    have hle := (length_le_of_mem_blockBytes codec hp).1
    have hsize := hfit.sizes block hblock
    omega
  have hdata : (dataBytes codec blocks).length < 2 ^ 62 := by
    rcases List.eq_nil_or_concat' blocks with rfl | ⟨front, block, rfl⟩
    · exact Nat.two_pow_pos 62
    · have hfront := hfit.front
      have hsize := hfit.sizes block (by simp)
      rw [List.dropLast_concat] at hfront
      rw [dataBytes_append, List.length_append]
      simp only [dataBytes, List.flatMap_cons, List.flatMap_nil, List.append_nil, length_withCrc] at hfront ⊢
      omega
  obtain ⟨r, hopen, -, -, -, hindex, -⟩ := h.exists_reader hasc hkeys hflen hdata hfit.index []
  intro t ht es htext e e' hkept hkept' hoff
  obtain ⟨t', es', ht', hsize, htext', hindex'⟩ := SSTableReader.index_of_openFile hopen
  obtain rfl := Option.some.inj (ht.symm.trans ht')
  have hentry {e : IndexRecord} (hkept : Kept es e) : ∃ x ∈ extents codec 0 blocks,
      UInt32.ofNat x.offset = e.offset ∧ UInt32.ofNat x.size = e.size := by
    have hmem := mem_foldl_put.mpr ⟨e, hkept, rfl, rfl⟩
    rw [htext.foldl_put_eq (length_indexCrc file hsize) htext', ← hindex', hindex] at hmem
    obtain ⟨x, hx, he⟩ := List.mem_map.mp hmem
    obtain ⟨hoffset, hsize⟩ := BlockHandle.mk.inj (Prod.mk.inj he).2
    exact ⟨x, hx, UInt32.toUInt64_inj.mp hoffset, hsize⟩
  obtain ⟨x, hx, hxo, hxs⟩ := hentry hkept
  obtain ⟨x', hx', hxo', hxs'⟩ := hentry hkept'
  have hsmall {x : Extent} (hx : x ∈ extents codec 0 blocks) : (UInt32.ofNat x.offset).toNat = x.offset := by
    have hle := extents_offset_le hx
    have hfront := hfit.front
    exact toNat_ofNat32 (by omega)
  have hsame : x.offset = x'.offset := by rw [← hsmall hx, ← hsmall hx', hxo, hxo', hoff]
  rw [← hxs, ← hxs', List.inj_on_of_nodup_map (nodup_offsets 0 blocks) hx hx' hsame]

theorem sizeOf_append {xs ys : List (Bytes × Bytes)} {m m' : SortedMap Bytes Bytes} (h : m.entries = xs)
    (h' : m'.entries = xs ++ ys) :
    Session.sizeOf m ≤ Session.sizeOf m' := by
  rw [Session.sizeOf, Session.sizeOf, h, h', List.map_append, List.sum_append]
  exact Nat.le_add_right _ _

/-- The Puts of the pairs of a map fill the MemTable with it, when there is room. -/
theorem exists_filled (options : Options) (height : Height) (m : SortedMap Bytes Bytes)
    (hroom : Session.sizeOf m < options.writeBufferSize) (hallowed : ∀ db : DB, db.sstFiles = [] → allowed db) :
    ∃ d db s, Opened .base128 allowed d db ∧ Represents .base128 s [] d db ∧ s.gens.top = m ∧ db.options = options ∧
      db.blockCache = some (LRUCache.create options.blockCacheSize) := by
  have hfill (xs ys : List (Bytes × Bytes)) (hm : m.entries = xs ++ ys) : ∃ d db s, Opened .base128 allowed d db ∧
      Represents .base128 s [] d db ∧ s.gens.top.entries = xs ∧ db.options = options ∧
        db.blockCache = some (LRUCache.create options.blockCacheSize) := by
    induction xs using List.reverseRecOn generalizing ys with
    | nil =>
        obtain ⟨d, db, hcreate, hrep, ho⟩ := Represents.create .base128 (fun _ => height) options
        refine ⟨d, db, .empty, .create hcreate, hrep, rfl, ho, ?_⟩
        rw [(DB.Loaded.of_create hcreate).cache, ho]
    | append_singleton xs p ih =>
        obtain ⟨d, db, s, hopened, hrep, htop, ho, hcache⟩ := ih ([p] ++ ys) (by rw [hm, List.append_assoc])
        have hasc := m.ascending
        rw [hm, List.append_assoc, List.pairwise_append] at hasc
        have hentries : (s.write (.put p.1 p.2)).gens.top.entries = xs ++ [p] := by
          show (s.gens.top.insert p.1 p.2).entries = xs ++ [p]
          rw [SortedMap.entries_insert_of_forall_lt, htop]
          rw [htop]
          exact fun q hq => hasc.2.2 q hq p (by simp)
        have hsize := sizeOf_append hentries hm
        obtain ⟨batch, hbatch⟩ := Option.isSome_iff_exists.mp
          ((Mutation.put p.1 p.2).batch_isSome VarintCodec.base128_encodes)
        obtain ⟨w, memTable, hput, hrep'⟩ := hrep.put_room hbatch height (by rw [ho]; omega)
        have hcall : db.call .base128 d (.put p.1 p.2 height) =
            some (.written true, d, { db with logWrite := w, memTable := memTable }) := by
          rw [DB.call, hput]
          rfl
        exact ⟨d, _, _, hopened.call (hallowed db hrep.paths) hcall, hrep', hentries, ho, hcache⟩
  obtain ⟨d, db, s, hopened, hrep, htop, hrest⟩ := hfill m.entries [] (List.append_nil _).symm
  exact ⟨d, db, s, hopened, hrep, SortedMap.ext htop, hrest⟩

/-- And FlushMemTable writes it to the first file, behind which nothing is in the cache. -/
theorem exists_flushed (allowed : DB → Prop) (options : Options) (m : SortedMap Bytes Bytes)
    (hroom : Session.sizeOf m < options.writeBufferSize) (hmax : ¬ (1 : Int) ≥ options.maxSstableCount.toInt)
    (hne : m.entries ≠ []) {file : Bytes} (hfile : SSTableBuilder.build .base128 m.entries = some file)
    (hallowed : ∀ db : DB, db.sstFiles = [] → allowed db) :
    ∃ d db path, Opened .base128 allowed d db ∧ db.sstFiles = [path] ∧ d.read path = some file ∧
      db.blockCache = some (LRUCache.create options.blockCacheSize) := by
  obtain ⟨d, db, s, hopened, hrep, rfl, rfl, hcache⟩ := exists_filled options ⟨1, by decide⟩ m hroom hallowed
  obtain ⟨memTable, hclear, -⟩ := hrep.top.clear
  have hempty : db.memTable.isEmpty = false := by
    rw [hrep.top.isEmpty, List.isEmpty_eq_false_iff]
    exact hne
  have hpaths : db.sstFiles = [] := hrep.paths
  have hone : SSTableBuilder.toInt ([] ++ [db.nextPath]).length = 1 := SSTableBuilder.toInt_of_lt (n := 1) (by decide)
  have hcomplete : Outcome.Complete {} file := ⟨rfl, by simp⟩
  have hflush : db.flushMemTable .base128 {} d = _ := flushMemTable_eq {} hrep.top hempty hclear
  rw [hfile, Option.bind_some, hpaths, hcomplete.taken, DB.maybeScheduleCompaction, hone, if_neg hmax] at hflush
  have hcall : db.call .base128 d .flushMemTable = _ := congrArg (Option.map fun r => (Answer.done, r)) hflush
  refine ⟨_, _, db.nextPath, hopened.call (hallowed db hpaths) hcall, rfl, ?_, hcache⟩
  have hlog : fileName db.nextPath ≠ fileName (DB.generateLogFilename db.options) := by
    rw [fileName_nextPath, fileName_log]
    exact sstName_ne_logName _
  show (((d.store db.nextPath file).remove (DB.generateLogFilename db.options)).store
    (DB.generateLogFilename db.options) []).read db.nextPath = some file
  rw [Disk.read_store, if_neg hlog, Disk.read_remove, if_neg hlog, Disk.read_store, if_pos rfl]

theorem SSTableReader.readDataBlock_of_hit {r : SSTableReader} {offset : UInt64} {data : BolckData} (size : UInt32)
    (h : cacheGet cache (makeCacheKey r.filename offset.toNat) = some (some data, cache')) :
    r.readDataBlock cache offset size = some (some data, r, cache') := by
  simp only [SSTableReader.readDataBlock, h, Option.bind_eq_bind, Option.bind_some]
  rfl

/-- The first Get on an empty cache leaves the block there that it has read. -/
theorem Opened.ask_first (h : Opened codec allowed d db) {path key k : Bytes} {r r' : SSTableReader} {f : BloomFilter}
    {handle : BlockHandle} {data : BolckData} {n : Nat} (hcache : db.blockCache = some (LRUCache.create n))
    (hpath : path ∈ db.sstFiles) (hopen : SSTableReader.openFile path (d.read path) = some (true, r))
    (hfilter : r.filter = some f) (hmay : f.mayContain key = true) (hfound : r.index.lowerBound key = some (k, handle))
    (hread : r.readDataBlock none handle.offset handle.size = some (some data, r', none)) :
    ∃ cache' hit, Opened codec allowed d { db with blockCache := cache' } ∧
      cacheGet cache' (makeCacheKey path handle.offset.toNat) = some (some data, hit) := by
  have hempty : Stores (fun _ _ => False) db.blockCache := by
    rw [hcache]
    exact ⟨[], LRUCache.Holds.create n, by simp⟩
  rcases r.readDataBlock_cases hempty handle.offset handle.size with
    ⟨-, -, hfalse, -⟩ | ⟨-, hfault⟩ | ⟨out, r₁, cache', hmiss, hnone, -, hhit⟩
  · exact hfalse.elim
  · rw [hread] at hfault
    cases hfault
  · rw [hread] at hnone
    obtain ⟨rfl, -⟩ := Prod.mk.inj (Option.some.inj hnone)
    obtain ⟨hit, hagain⟩ := hhit data rfl (by rw [hcache]; rfl)
    rw [filename_of_openFile hopen] at hagain
    have hget := r.get_of_lowerBound db.blockCache (by simp [hfilter, hmay]) hfound
    rw [hmiss, Option.map_some] at hget
    exact ⟨cache', hit, h.ask hpath hopen hget, hagain⟩

theorem IsTable.eq_first {file : Bytes} {block : BolckData} {blocks : List BolckData} {f : BloomFilter}
    (h : IsTable codec file (block :: blocks) f) : ∃ rest, file = withCrc (blockBytes codec block) ++ rest := by
  have hcons : dataBytes codec (block :: blocks) = withCrc (blockBytes codec block) ++ dataBytes codec blocks := by
    rw [dataBytes, dataBytes, List.flatMap_cons]
  rw [h.bytes_eq, tableBytes, hcons, List.append_assoc]
  exact ⟨_, rfl⟩

theorem IsTable.readDataBlock_first {file : Bytes} {block : BolckData} {blocks : List BolckData} {f : BloomFilter}
    (h : IsTable codec file (block :: blocks) f) (hsize : (withCrc (blockBytes codec block)).length < 2 ^ 32)
    {r : SSTableReader} (hf : r.file.failed = false) (hbytes : r.file.bytes = file) :
    ∃ r', r.readDataBlock none (UInt32.ofNat 0).toUInt64 (UInt32.ofNat (withCrc (blockBytes codec block)).length) =
      some (some block, r', none) := by
  obtain ⟨rest, hrest⟩ := h.eq_first
  have hcut : r.file.bytes = [] ++ (withCrc (blockBytes codec block) ++ rest) := by rw [hbytes, hrest, List.nil_append]
  have hmem : ∀ p ∈ block, p ∈ (block :: blocks).flatten := fun p hp => by simp [hp]
  rw [length_withCrc] at hsize
  have hparse := parseBlock_blockBytes (fun p hp => h.encodes p (hmem p hp))
    (fun p hp => by
      have hle := length_le_of_mem_blockBytes codec hp
      omega)
    le_rfl (encodeFixed32 (valueCRC32 0xffffffff (blockBytes codec block)) ++ [0]) []
  obtain ⟨f', -, -, hread⟩ := SSTableReader.readDataBlock_withCrc hf hcut (by decide) (by rw [length_withCrc]; exact hsize)
  rw [hparse] at hread
  exact ⟨_, hread⟩

theorem block_cache_transparent_one : ∃ d db path hit, Opened .base128 NameFree d db ∧ db.sstFiles = [path] ∧
    cacheGet db.blockCache (makeCacheKey path 0) = some (some [([1], [2])], hit) ∧
      Transparent d path db.blockCache := by
  let m : SortedMap Bytes Bytes := SortedMap.empty.insert [1] [2]
  obtain ⟨file, hfile⟩ := Option.isSome_iff_exists.mp
    (SSTableBuilder.build_isSome VarintCodec.base128_encodes (show m.entries.length * 10 < 2 ^ 31 by decide))
  obtain ⟨d, db, path, hopened, hpaths, hread, hcache⟩ :=
    exists_flushed NameFree {} m (by decide) (by decide) (by decide)
    hfile (fun db hnil path hpath => by rw [hnil] at hpath; cases hpath)
  obtain ⟨f, htable, hflen⟩ := SSTableBuilder.isTable_of_build hfile
  have hcut : cutBlocks .base128 m.entries = [[([1], [2])]] := by decide
  rw [hcut] at htable
  have hasc : Ascending [[(([1], [2]) : Bytes × Bytes)]] := by
    simp [Ascending]
  have hfit : PositionsFit .base128 [[([1], [2])]] := ⟨by decide, by decide, by decide⟩
  have htell := htable.offsetsTell hasc hflen hfit
  obtain ⟨r, hopen, -, hfailed, hbytes, hindex, hfilter⟩ :=
    htable.exists_reader hasc (by simp) hflen (by decide) hfit.index path
  rw [← hread] at hopen
  have hentry : r.index.entries =
      [] ++ Extent.entry ⟨[1], 0, (withCrc (blockBytes .base128 [([1], [2])])).length⟩ :: [] := hindex
  have hfound := SortedMap.lowerBound_eq_some hentry (by simp) (show ¬ ([1] : Bytes) < [1] by decide)
  obtain ⟨r', hblock⟩ := htable.readDataBlock_first (by decide) hfailed hbytes
  obtain ⟨cache, hit, hasked, hhit⟩ :=
    hopened.ask_first hcache (by rw [hpaths]; exact List.mem_singleton_self path) hopen hfilter
    (htable.mayContain ([1], [2]) (by simp)) hfound hblock
  refine ⟨d, _, path, hit, hasked, hpaths, hhit, block_cache_transparent hasked ?_⟩
  intro file' hfile'
  rw [hread] at hfile'
  rw [← Option.some.inj hfile']
  exact htell

section Forged

/-! A value that makes the front of its own block a block with a right checksum. Behind 2^32 bytes of other
blocks the index sends a key to this front. -/

/-- What a block starts with that has the key [1] and a value of 4096 bytes. -/
def forgedText : Bytes := [1, 1, 128, 32]

def forgedValue (pad : Bytes) : Bytes := encodeFixed32 (valueCRC32 0xffffffff forgedText) ++ pad

def forgedMap (pad v : Bytes) : SortedMap Bytes Bytes where
  entries := [([1], forgedValue pad), ([2], v), ([3], [0])]
  ascending := by
    have h₁ : ([1] : Bytes) < [2] := by decide
    have h₂ : ([1] : Bytes) < [3] := by decide
    have h₃ : ([2] : Bytes) < [3] := by decide
    simp [h₁, h₂, h₃]

/-- The key is there, but no value of this length. -/
theorem parseBlock_forgedText (beyond : Bytes) : parseBlock forgedText.length ⟨forgedText, beyond⟩ [] = some [] := by
  have hkey : EncodedAs [1, 1] [1] := ⟨[1], rfl, by decide, by decide⟩
  have hstring := decodeString_encodedAs hkey [128, 32] beyond
  have hlen : decodeVarint32 ([128, 32] ++ beyond) = some (2, 4096) := decodeVarint32_append (by decide) beyond
  have hvalue : decodeString ⟨[128, 32], beyond⟩ = some none := by
    have hshort : (2 : Int) < 0 ∨ (2 : Int) + (4096 : UInt32).toNat > ([128, 32] : Bytes).length := .inr (by decide)
    simp only [decodeString, Cursor.bytes, hlen, Option.bind_eq_bind, Option.bind_some]
    rw [if_pos hshort]
    rfl
  have hcut : forgedText = [1, 1] ++ [128, 32] := rfl
  have hfuel : forgedText.length = 3 + 1 := rfl
  rw [hfuel, hcut, parseBlock, if_neg (by simp)]
  simp only [hstring, hvalue, Option.bind_eq_bind, Option.bind_some]
  rfl

variable {pad v : Bytes} (hpad : pad.length = 4092) (hv : v.length = 2 ^ 32 - 4115)

include hpad

theorem blockBytes_forged : blockBytes .base128 [([1], forgedValue pad)] = withCrc forgedText ++ pad := by
  have hlen : (forgedValue pad).length = 4096 := by
    rw [forgedValue, List.length_append, length_encodeFixed32, hpad]
  have hbytes : VarintCodec.base128.bytes 4096 = [128, 32] := by decide
  have hone : VarintCodec.base128.bytes 1 = [1] := by decide
  simp only [blockBytes, lengthPrefixed, List.flatMap_cons, List.flatMap_nil, List.append_nil, hlen, hbytes,
    List.length_singleton, hone]
  rfl

/-- At 2^32, which is 0 in 32 bits, the reader takes this front for a block. -/
theorem readDataBlock_forged {file : Bytes} {blocks : List BolckData} {f : BloomFilter}
    (h : IsTable .base128 file ([([1], forgedValue pad)] :: blocks) f) {r : SSTableReader} (hf : r.file.failed = false)
    (hbytes : r.file.bytes = file) :
    ∃ r', r.readDataBlock none (UInt32.ofNat (2 ^ 32)).toUInt64 (UInt32.ofNat 8) = some (some [], r', none) := by
  obtain ⟨rest, hrest⟩ := h.eq_first
  have hfront : r.file.bytes = [] ++ (withCrc forgedText ++
      (pad ++ (encodeFixed32 (valueCRC32 0xffffffff (blockBytes .base128 [([1], forgedValue pad)])) ++ rest))) := by
    rw [hbytes, hrest, withCrc, blockBytes_forged hpad]
    simp only [List.append_assoc, List.nil_append]
  obtain ⟨f', -, -, hread⟩ := SSTableReader.readDataBlock_withCrc hf hfront (by decide) (by rw [length_withCrc]; decide)
  rw [parseBlock_forgedText, Option.map_some, length_withCrc] at hread
  exact ⟨_, hread⟩

include hv

theorem lengths_forged : (blockBytes .base128 [([1], forgedValue pad)]).length = 4100 ∧
    (blockBytes .base128 [([2], v)]).length = 2 ^ 32 - 4108 ∧ (blockBytes .base128 [([3], [0])]).length = 4 := by
  have hfive : (VarintCodec.base128.bytes (2 ^ 32 - 4115)).length = 5 := by decide
  have hone : (VarintCodec.base128.bytes 1).length = 1 := by decide
  refine ⟨?_, ?_, by decide⟩
  · rw [blockBytes_forged hpad, List.length_append, length_withCrc, hpad]
    rfl
  · rw [length_blockBytes_singleton, hv, hfive, List.length_singleton, hone]
    norm_num

theorem cutBlocks_forged :
    cutBlocks .base128 (forgedMap pad v).entries = [[([1], forgedValue pad)], [([2], v)], [([3], [0])]] := by
  obtain ⟨h₁, h₂, h₃⟩ := lengths_forged hpad hv
  exact cutBlocks_three (by omega) (by omega) (by omega)

theorem extents_forged : extents .base128 0 [[([1], forgedValue pad)], [([2], v)], [([3], [0])]] =
    [⟨[1], 0, 4104⟩, ⟨[2], 4104, 2 ^ 32 - 4104⟩, ⟨[3], 2 ^ 32, 8⟩] := by
  obtain ⟨h₁, h₂, h₃⟩ := lengths_forged hpad hv
  simp only [extents, length_withCrc, h₁, h₂, h₃]
  rfl

end Forged

theorem block_cache_confused : ¬ ∀ (d : Disk) (db : DB) (path : Bytes), Opened .base128 (fun _ => True) d db →
    path ∈ db.sstFiles → Transparent d path db.blockCache := by
  intro hall
  obtain ⟨pad, hpad⟩ : ∃ pad : Bytes, pad.length = 4092 := ⟨List.replicate 4092 0, List.length_replicate⟩
  obtain ⟨v, hv⟩ : ∃ v : Bytes, v.length = 2 ^ 32 - 4115 := ⟨List.replicate (2 ^ 32 - 4115) 0, List.length_replicate⟩
  obtain ⟨file, hfile⟩ := Option.isSome_iff_exists.mp
    (SSTableBuilder.build_isSome VarintCodec.base128_encodes
      (show (forgedMap pad v).entries.length * 10 < 2 ^ 31 by simp [forgedMap]))
  have hroom : Session.sizeOf (forgedMap pad v) < ({ writeBufferSize := 2 ^ 40 } : Options).writeBufferSize := by
    simp [Session.sizeOf, forgedMap, forgedValue, hpad, hv]
  obtain ⟨d, db, path, hopened, hpaths, hread, hcache⟩ :=
    exists_flushed (fun _ => True) { writeBufferSize := 2 ^ 40 } (forgedMap pad v) hroom
    (by decide) (by simp [forgedMap]) hfile (fun _ _ => trivial)
  have hlisted : path ∈ db.sstFiles := by rw [hpaths]; exact List.mem_singleton_self path
  obtain ⟨f, htable, hflen⟩ := SSTableBuilder.isTable_of_build hfile
  rw [cutBlocks_forged hpad hv] at htable
  obtain ⟨h₁, h₂, h₃⟩ := lengths_forged hpad hv
  have hasc : Ascending [[([1], forgedValue pad)], [([2], v)], [([3], [0])]] := (forgedMap pad v).ascending
  have hdata : (dataBytes .base128 [[([1], forgedValue pad)], [([2], v)], [([3], [0])]]).length < 2 ^ 62 := by
    simp only [dataBytes, List.flatMap_cons, List.flatMap_nil, List.append_nil, List.length_append, length_withCrc,
      h₁, h₂, h₃]
    omega
  have hindexLength : (indexBytes .base128
      (extents .base128 0 [[([1], forgedValue pad)], [([2], v)], [([3], [0])]])).length + 4 < 2 ^ 32 := by
    rw [extents_forged hpad hv]
    decide
  obtain ⟨r, hopen, hname, hfailed, hbytes, hindex, hfilter⟩ :=
    htable.exists_reader hasc (by simp) hflen hdata hindexLength path
  rw [extents_forged hpad hv] at hindex
  rw [← hread] at hopen
  -- the block of the key [3] starts at 2^32, which the index has as 0
  have hthird : r.index.entries = [Extent.entry ⟨[1], 0, 4104⟩, Extent.entry ⟨[2], 4104, 2 ^ 32 - 4104⟩] ++
      Extent.entry ⟨[3], 2 ^ 32, 8⟩ :: [] := hindex
  have hfound₃ := SortedMap.lowerBound_eq_some hthird (k := [3])
    (fun q hq => by
      have hlt : q = Extent.entry ⟨[1], 0, 4104⟩ ∨ q = Extent.entry ⟨[2], 4104, 2 ^ 32 - 4104⟩ := by simpa using hq
      rcases hlt with rfl | rfl
      · show ([1] : Bytes) < [3]
        decide
      · show ([2] : Bytes) < [3]
        decide) (show ¬ ([3] : Bytes) < [3] by decide)
  obtain ⟨r₃, hforged⟩ := readDataBlock_forged hpad htable hfailed hbytes
  obtain ⟨cache, hit, hasked, hhit⟩ :=
    hopened.ask_first hcache hlisted hopen hfilter (htable.mayContain ([3], [0]) (by simp)) hfound₃
    hforged
  -- and the Get of the key [1] finds under its own offset what was read there
  have hfirst : r.index.entries = [] ++ Extent.entry ⟨[1], 0, 4104⟩ :: [Extent.entry ⟨[2], 4104, 2 ^ 32 - 4104⟩,
      Extent.entry ⟨[3], 2 ^ 32, 8⟩] := hindex
  have hfound₁ := SortedMap.lowerBound_eq_some hfirst (k := [1]) (by simp) (show ¬ ([1] : Bytes) < [1] by decide)
  have hmay₁ := htable.mayContain ([1], forgedValue pad) (by simp)
  have hsame := (hall d _ path hasked hlisted).get r hopen [1]
  obtain ⟨r', hblock⟩ := htable.readDataBlock_first (by rw [length_withCrc, h₁]; decide) hfailed hbytes
  rw [length_withCrc, h₁] at hblock
  rw [← hname] at hhit
  have hcached : r.readDataBlock cache (UInt32.ofNat 0).toUInt64 (UInt32.ofNat (4100 + 4)) = some (some [], r, hit) :=
    SSTableReader.readDataBlock_of_hit (UInt32.ofNat (4100 + 4)) hhit
  have hpass : r.filter.any (fun f => !f.mayContain [1]) = false := by simp [hfilter, hmay₁]
  rw [r.get_of_lowerBound _ hpass hfound₁, r.get_of_lowerBound _ hpass hfound₁] at hsame
  dsimp only [Extent.entry] at hsame
  rw [hcached, hblock] at hsame
  simp at hsame

end MiniStorage.Engine
