import MiniStorage.Datanode.RangedRead

namespace MiniStorage.Datanode

open Namenode BlockStore

/-- Where the process is when it dies, if it does. -/
inductive Stop where
  | never
  | afterTmp
  | afterMeta
deriving DecidableEq, Repr

namespace BlockStore

/-- What WriteBlock returns if it lives to do so, and the files it leaves. -/
def writeBlockUntil (crc32 : Bytes → UInt32) (s : BlockStore) (blockId : BlockId) (data : Bytes) (disk : Disk) :
    Stop → Option Bool × BlockStore
  | .never => ((s.writeBlock crc32 blockId data disk).1, (s.writeBlock crc32 blockId data disk).2)
  | .afterTmp =>
      let (ok, s) := s.writeTmp blockId data disk
      (if ok then none else some false, s)
  | .afterMeta =>
      let (ok, s) := s.writeTmp blockId data disk
      if !ok then (some false, s)
      else
        let (ok, s) := s.writeMeta blockId (.ofData crc32 blockId data disk) disk
        if !ok then (some false, s.remove (blockTmpPath blockId)) else (none, s)

/-- A process that has died is started again: the constructor of BlockStore clears tmp/. -/
def restarted : Option Bool × BlockStore → BlockStore
  | (none, s) => s.cleanTempFiles
  | (some _, s) => s

/-- The id has nothing on disk, and no other file is taken for it. -/
structure Absent (s : BlockStore) (blockId : BlockId) : Prop where
  noMeta : s.files.find (blockMetaPath blockId) = none
  noData : s.files.find (blockDataPath blockId) = none
  unlisted : ∀ it, ∀ m ∈ s.listAllBlocks it, m.blockId ≠ blockId

/-- GetBlockMeta or ListAllBlocks says that there is such a block. -/
def Reported (s : BlockStore) (blockId : BlockId) : Prop :=
  s.getBlockMeta blockId ≠ none ∨ ∃ it, ∃ m ∈ s.listAllBlocks it, m.blockId = blockId

/-- The whole block can be read, and it is one of the two. -/
def ReadsEither (crc32 : Bytes → UInt32) (s : BlockStore) (blockId : BlockId) (old new : Bytes) : Prop :=
  ∃ content, s.readBlock crc32 blockId 0 0 [] = some (true, content) ∧ (content = old ∨ content = new)

/-- WriteBlock has come past the write of the .meta file. -/
def metaReplaced (disk : Disk) (stop : Stop) : Bool := disk.tmpOpens && disk.metaOpens && decide (stop ≠ .afterTmp)

end BlockStore

variable {crc32 : Bytes → UInt32} {s : BlockStore} {blockId : BlockId} {data old : Bytes} {disk : Disk} {stop : Stop}
  {path : FilePath}

theorem filename_tmpPath (id : BlockId) : (filename (text "tmp/") (blockTmpPath id)).isSome = true := by
  have hname : filename (text "tmp/")
      (text "tmp/" ++ (text "block_" ++ Decimal.encodePadded 6 id.toNat ++ text ".dat.tmp")) =
      some (text "block_" ++ Decimal.encodePadded 6 id.toNat ++ text ".dat.tmp") :=
    filename_append (slash_not_mem id (text ".dat.tmp") (by decide))
  exact congrArg Option.isSome hname

theorem ne_blockTmpPath (hpath : filename (text "tmp/") path = none) (id : BlockId) : path ≠ blockTmpPath id := by
  rintro rfl
  have hname := filename_tmpPath id
  rw [hpath] at hname
  cases hname

theorem find_foldl_remove {paths : List FilePath} (h : path ∉ paths) :
    (paths.foldl remove s).files.find path = s.files.find path := by
  induction paths generalizing s with
  | nil => rfl
  | cons p paths ih =>
      obtain ⟨hp, hpaths⟩ := not_or.mp (mt List.mem_cons.mpr h)
      rw [List.foldl_cons, ih hpaths, remove, SortedMap.find_erase, if_neg hp]

theorem find_cleanTempFiles (hpath : filename (text "tmp/") path = none) :
    s.cleanTempFiles.files.find path = s.files.find path := by
  rw [cleanTempFiles, find_foldl_remove]
  intro hmem
  have hname := (List.mem_filter.mp hmem).2
  rw [hpath] at hname
  cases hname

/-- A write that does not come to its end leaves everything outside of tmp/ as it was, but for the .meta file. -/
theorem find_restarted (hfail : (s.writeBlockUntil crc32 blockId data disk stop).1 ≠ some true)
    (hpath : filename (text "tmp/") path = none) :
    (restarted (s.writeBlockUntil crc32 blockId data disk stop)).files.find path =
      if metaReplaced disk stop = true ∧ path = blockMetaPath blockId then
        some (taken disk.metaRoom (BlockMeta.ofData crc32 blockId data disk).line)
      else s.files.find path := by
  have hne := ne_blockTmpPath hpath blockId
  have hne' := (blockMetaPath_ne_blockTmpPath blockId blockId).symm
  cases htmp : disk.tmpOpens with
  | false => cases stop <;> simp [writeBlockUntil, writeBlock, writeTmp, htmp, restarted, metaReplaced]
  | true =>
      cases stop with
      | afterTmp =>
          simp only [writeBlockUntil, writeTmp, htmp, Bool.not_true, Bool.false_eq_true, if_false, if_true, restarted,
            find_cleanTempFiles hpath, SortedMap.find_insert, hne, metaReplaced]
          simp
      | afterMeta =>
          cases hmeta : disk.metaOpens with
          | false =>
              simp [writeBlockUntil, writeTmp, writeMeta, htmp, hmeta, restarted, metaReplaced, remove,
                SortedMap.find_insert, SortedMap.find_erase, hne]
          | true =>
              simp [writeBlockUntil, writeTmp, writeMeta, htmp, hmeta, restarted, metaReplaced, find_cleanTempFiles hpath,
                SortedMap.find_insert, hne, bytes_write_taken]
      | never =>
          cases hmeta : disk.metaOpens with
          | false =>
              simp [writeBlockUntil, writeBlock, writeTmp, writeMeta, htmp, hmeta, restarted, metaReplaced, remove,
                SortedMap.find_insert, SortedMap.find_erase, hne]
          | true =>
              cases hrename : disk.renames with
              | false =>
                  simp [writeBlockUntil, writeBlock, writeTmp, writeMeta, renameTmp, htmp, hmeta, hrename, restarted,
                    metaReplaced, remove, SortedMap.find_insert, SortedMap.find_erase, hne, hne', bytes_write_taken,
                    BlockMeta.ofData]
              | true =>
                  refine absurd (congrArg some ?_) hfail
                  rw [BlockStore.writeBlock_fst, Disk.lets, htmp, hmeta, hrename]
                  rfl

/-- What a read by the new description finds in the data file of the old content. -/
theorem mixed_iff {bytes : Bytes} {n : Nat} (hn : n ≤ bytes.length) (hold : old = bytes.take n) :
    (∃ content, (data.length ≤ bytes.length ∧ content = bytes.take data.length ∧
        (data.length = 0 ∨ crc32 content = crc32 data)) ∧ (content = old ∨ content = data)) ↔
      data <+: bytes ∨ data.length = old.length ∧ crc32 data = crc32 old := by
  have hlen : old.length = n := by rw [hold, List.length_take_of_le hn]
  constructor
  · rintro ⟨content, ⟨hle, hcontent, hsum⟩, hwhich⟩
    rcases hwhich with rfl | rfl
    · rcases hsum with hzero | hsum
      · exact .inl (List.eq_nil_of_length_eq_zero hzero ▸ List.nil_prefix)
      · refine .inr ⟨?_, hsum.symm⟩
        rw [hcontent, List.length_take_of_le hle]
    · exact .inl (hcontent ▸ List.take_prefix _ _)
  · rintro (hfront | ⟨hsame, hsum⟩)
    · have htake : data = bytes.take data.length := List.prefix_iff_eq_take.mp hfront
      exact ⟨data, ⟨hfront.length_le, htake, .inr rfl⟩, .inr rfl⟩
    · refine ⟨old, ⟨by omega, ?_, .inr hsum.symm⟩, .inl rfl⟩
      rw [hsame, hlen, hold]

section

variable (hfail : (s.writeBlockUntil crc32 blockId data disk stop).1 ≠ some true)
include hfail

theorem readMeta_restarted (id : BlockId) : (restarted (s.writeBlockUntil crc32 blockId data disk stop)).readMeta id =
    if metaReplaced disk stop = true ∧ id = blockId then
      parseMeta (taken disk.metaRoom (BlockMeta.ofData crc32 blockId data disk).line)
    else s.readMeta id := by
  rw [readMeta, find_restarted hfail (filename_tmp_metaPath id)]
  by_cases hid : metaReplaced disk stop = true ∧ id = blockId
  · rw [if_pos hid, if_pos ⟨hid.1, congrArg blockMetaPath hid.2⟩, Option.bind_some]
  · rw [if_neg hid, if_neg (fun h => hid ⟨h.1, blockMetaPath_inj h.2⟩)]
    rfl

theorem find_dataPath_restarted (id : BlockId) :
    (restarted (s.writeBlockUntil crc32 blockId data disk stop)).files.find (blockDataPath id) =
      s.files.find (blockDataPath id) := by
  rw [find_restarted hfail (filename_tmp_dataPath id), if_neg (fun h => blockDataPath_ne_blockMetaPath _ _ h.2)]

variable (hdata : data.length < 2 ^ 63) (hnow : -2 ^ 63 ≤ disk.now ∧ disk.now < 2 ^ 63)
include hdata hnow

/-- After a write that did not come to its end the old content is still there, or the new one, exactly where the .meta file
was not reached, or it got whole and fits what is in the data file. -/
theorem readsEither_restarted_iff (hold : s.readBlock crc32 blockId 0 0 [] = some (true, old)) :
    (restarted (s.writeBlockUntil crc32 blockId data disk stop)).ReadsEither crc32 blockId old data ↔
      metaReplaced disk stop = false ∨
        hasRoom disk.metaRoom ((BlockMeta.ofData crc32 blockId data disk).front.length + 1) = true ∧
          ((s.files.find (blockDataPath blockId)).any (data.isPrefixOf ·) = true ∨
            data.length = old.length ∧ crc32 data = crc32 old) := by
  have hmeta' := readMeta_restarted hfail blockId
  have hfile' := find_dataPath_restarted hfail blockId
  generalize restarted (s.writeBlockUntil crc32 blockId data disk stop) = s' at hmeta' hfile'
  cases hmeta : s.readMeta blockId with
  | none => simp [readBlock, hmeta] at hold
  | some m =>
  cases hfile : s.files.find (blockDataPath blockId) with
  | none => simp [readBlock, hmeta, hfile] at hold
  | some bytes =>
  rw [hfile] at hfile'
  obtain ⟨hsize, hle, hcontent, hsum⟩ := (readBlock_whole hmeta hfile).mp hold
  cases hreplaced : metaReplaced disk stop with
  | false =>
      rw [hreplaced, if_neg (fun h => Bool.false_ne_true h.1), hmeta] at hmeta'
      exact iff_of_true ⟨old, (readBlock_whole hmeta' hfile').mpr ⟨hsize, hle, hcontent, hsum⟩, .inl rfl⟩ (.inl rfl)
  | true =>
      rw [hreplaced, if_pos ⟨rfl, rfl⟩] at hmeta'
      obtain ⟨hroom, hdescribes⟩ := parseMeta_taken disk.metaRoom (BlockMeta.fits_ofData crc32 blockId hdata hnow)
      rw [← hmeta'] at hroom hdescribes
      cases hm : s'.readMeta blockId with
      | none =>
          rw [hm] at hroom
          refine iff_of_false ?_ ?_
          · rintro ⟨content, hread, -⟩
            simp [readBlock, hm] at hread
          · rintro (h | h)
            · cases h
            · exact Bool.false_ne_true (hroom.trans h.1)
      | some m' =>
          obtain ⟨-, hsize', hcrc'⟩ := hdescribes m' hm
          have hlength : m'.size = data.length := hsize'
          have hsum' : m'.crc32 = crc32 data := hcrc'
          rw [hm] at hroom
          have hmixed := @mixed_iff crc32 data old bytes m.size.toNat (by omega) hcontent
          simp only [ReadsEither, readBlock_whole hm hfile', ← hroom, Option.isSome_some, true_and, Bool.true_eq_false,
            false_or, Option.any_some, List.isPrefixOf_iff_prefix, ← hmixed, hlength, hsum', Int.toNat_natCast,
            Int.natCast_nonneg, Int.natCast_eq_zero, Int.ofNat_le]

/-- An id that had nothing is not heard of afterwards, or it can be read: exactly where the .meta file was not reached, or
not enough of it got on disk to be taken for one. -/
theorem reported_restarted_iff (habsent : s.Absent blockId) :
    ((restarted (s.writeBlockUntil crc32 blockId data disk stop)).Reported blockId →
        ∃ content, (restarted (s.writeBlockUntil crc32 blockId data disk stop)).readBlock crc32 blockId 0 0 [] =
          some (true, content)) ↔
      metaReplaced disk stop = false ∨
        hasRoom disk.metaRoom ((BlockMeta.ofData crc32 blockId data disk).front.length + 1) = false := by
  have hmeta' := readMeta_restarted hfail
  have hfile' := find_dataPath_restarted hfail blockId
  generalize restarted (s.writeBlockUntil crc32 blockId data disk stop) = s' at hmeta' hfile'
  have hunread : ¬ ∃ content, s'.readBlock crc32 blockId 0 0 [] = some (true, content) := by
    rintro ⟨content, hread⟩
    rw [habsent.noData] at hfile'
    cases hm : s'.readMeta blockId <;> simp [readBlock, hm, hfile'] at hread
  -- only its own .meta file makes the id known
  have hreported : s'.Reported blockId ↔ s'.readMeta blockId ≠ none := by
    refine ⟨?_, .inl⟩
    rintro (hget | ⟨it, m, hmem, hid⟩)
    · exact hget
    · intro hnone
      obtain ⟨id', hm⟩ := mem_listAllBlocks.mp hmem
      have hne : id' ≠ blockId := by
        rintro rfl
        rw [hnone] at hm
        cases hm
      rw [hmeta', if_neg (fun h => hne h.2)] at hm
      exact habsent.unlisted it m (mem_listAllBlocks.mpr ⟨id', hm⟩) hid
  have hroom : (parseMeta (taken disk.metaRoom (BlockMeta.ofData crc32 blockId data disk).line)).isSome =
      hasRoom disk.metaRoom ((BlockMeta.ofData crc32 blockId data disk).front.length + 1) :=
    (parseMeta_taken disk.metaRoom (BlockMeta.fits_ofData crc32 blockId hdata hnow)).1
  rw [imp_iff_not hunread, hreported, not_not, hmeta', ← hroom]
  cases hreplaced : metaReplaced disk stop with
  | false =>
      have hnone : s.readMeta blockId = none := by rw [readMeta, habsent.noMeta, Option.bind_none]
      simp [hnone]
  | true => simp

end

/-- WriteBlock that fails or dies leaves the old block or the new one, and says nothing of a block that is not there,
exactly where it did not get to the .meta file, or what it wrote there does no harm. -/
theorem write_atomic_iff (crc32 : Bytes → UInt32) (s : BlockStore) (blockId : BlockId) (data : Bytes) (disk : Disk)
    (stop : Stop) (hfail : (s.writeBlockUntil crc32 blockId data disk stop).1 ≠ some true) (hdata : data.length < 2 ^ 63)
    (hnow : -2 ^ 63 ≤ disk.now ∧ disk.now < 2 ^ 63) :
    let s' := restarted (s.writeBlockUntil crc32 blockId data disk stop)
    let described := hasRoom disk.metaRoom ((BlockMeta.ofData crc32 blockId data disk).front.length + 1)
    (∀ old, s.readBlock crc32 blockId 0 0 [] = some (true, old) → (s'.ReadsEither crc32 blockId old data ↔
        metaReplaced disk stop = false ∨ described = true ∧
          ((s.files.find (blockDataPath blockId)).any (data.isPrefixOf ·) = true ∨
            data.length = old.length ∧ crc32 data = crc32 old))) ∧
      (s.Absent blockId →
        ((s'.Reported blockId → ∃ content, s'.readBlock crc32 blockId 0 0 [] = some (true, content)) ↔
          metaReplaced disk stop = false ∨ described = false)) := by
  intro s' described
  refine ⟨?_, ?_⟩
  · intro old hold
    exact readsEither_restarted_iff hfail hdata hnow hold
  · intro habsent
    exact reported_restarted_iff hfail hdata hnow habsent

/-- The checksums of two small blocks. -/
def smallCrc (data : Bytes) : UInt32 := if data = [1] then 2768625435 else 1007455905

theorem write_atomic_iff_tmp :
    let s := ((BlockStore.mk .empty).writeBlock smallCrc 1 [1] {}).2
    (restarted (s.writeBlockUntil smallCrc 1 [2] {} .afterTmp)).ReadsEither smallCrc 1 [1] [2] := by
  intro s
  refine ((write_atomic_iff smallCrc s 1 [2] {} .afterTmp ?_ (by decide) (by decide)).1 [1] ?_).mpr (.inl rfl)
  · exact nofun
  · decide +kernel

/-- A crash behind the write of the .meta file: the old block is lost, and the new one is not there. -/
theorem write_loses_block :
    let s := ((BlockStore.mk .empty).writeBlock smallCrc 1 [1] {}).2
    let r := s.writeBlockUntil smallCrc 1 [2] {} .afterMeta
    s.readBlock smallCrc 1 0 0 [] = some (true, [1]) ∧ r.1 = none ∧
      (restarted r).readBlock smallCrc 1 0 0 [] = some (false, [1]) ∧ ¬ (restarted r).ReadsEither smallCrc 1 [1] [2] := by
  intro s r
  have hread : (restarted r).readBlock smallCrc 1 0 0 [] = some (false, [1]) := by decide +kernel
  refine ⟨by decide +kernel, rfl, hread, ?_⟩
  rintro ⟨content, hcontent, -⟩
  rw [hread] at hcontent
  cases hcontent

end MiniStorage.Datanode
