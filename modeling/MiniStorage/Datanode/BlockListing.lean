import MiniStorage.Datanode.Atomicity
import Mathlib.Logic.Function.Basic

namespace MiniStorage.Datanode

open Namenode BlockStore

/-- A call on a BlockStore, and what becomes of it. -/
inductive Call where
  | write (blockId : BlockId) (data : Bytes) (disk : Disk) (stop : Stop)
  | delete (blockId : BlockId) (dataRemoves metaRemoves : Bool)

/-- What is known of a block that was written. -/
abbrev History := BlockId → Option (Bytes × Disk)

namespace Call

def run (crc32 : Bytes → UInt32) (s : BlockStore) : Call → Option Bool × BlockStore
  | .write blockId data disk stop => s.writeBlockUntil crc32 blockId data disk stop
  | .delete blockId dataRemoves metaRemoves => s.deleteBlock blockId dataRemoves metaRemoves

/-- Lengths and clocks are of the source's types. -/
def Fits : Call → Prop
  | .write _ data disk _ => data.length < 2 ^ 63 ∧ -2 ^ 63 ≤ disk.now ∧ disk.now < 2 ^ 63
  | .delete .. => True

def update (last : History) : Call → History
  | .write blockId data disk _ => Function.update last blockId (some (data, disk))
  | .delete blockId _ _ => Function.update last blockId none

end Call

namespace BlockStore

/-- An exception ends the process as a crash does. -/
def runs (crc32 : Bytes → UInt32) (s : BlockStore) (calls : List Call) : BlockStore :=
  calls.foldl (fun s c => restarted (c.run crc32 s)) s

/-- Every call of a run returns true. -/
def Succeed (crc32 : Bytes → UInt32) : List Call → BlockStore → Prop
  | [], _ => True
  | c :: calls, s => (c.run crc32 s).1 = some true ∧ Succeed crc32 calls (restarted (c.run crc32 s))

end BlockStore

/-- The write that was the last call on an id. -/
def lastWrites (calls : List Call) : History := calls.foldl Call.update fun _ => none

/-- Every file that a BlockStore has for an id. -/
def blockPaths (id : BlockId) : List FilePath := [blockDataPath id, blockMetaPath id, blockTmpPath id]

/-- A list of blocks is what was written and not deleted, each block once. -/
structure Exact (crc32 : Bytes → UInt32) (last : History) (blocks : List BlockMeta) : Prop where
  distinct : (blocks.map BlockMeta.blockId).Nodup
  listed : ∀ m ∈ blocks, ∃ data disk,
    last m.blockId = some (data, disk) ∧ m.size = data.length ∧ m.crc32 = crc32 data
  complete : ∀ id data disk, last id = some (data, disk) → ∃ m ∈ blocks, m.blockId = id

/-- The files of a store whose calls have all succeeded. -/
structure Tracks (crc32 : Bytes → UInt32) (last : History) (s : BlockStore) : Prop where
  lines : ∀ id, s.files.find (blockMetaPath id) =
    (last id).map fun p => taken p.2.metaRoom (BlockMeta.ofData crc32 id p.1 p.2).line
  names : ∀ path, (s.files.find path).isSome = true → ∃ id, path ∈ blockPaths id
  fits : ∀ id data disk, last id = some (data, disk) → (BlockMeta.ofData crc32 id data disk).Fits

variable {crc32 : Bytes → UInt32} {s : BlockStore} {last : History} {c : Call} {calls : List Call}
  {blockId : BlockId} {data : Bytes} {disk : Disk} {stop : Stop} {path name : FilePath} {dataRemoves metaRemoves : Bool}

theorem blockTmpPath_inj {id id' : BlockId} (h : blockTmpPath id = blockTmpPath id') : id = id' := blockName_inj h

theorem blockDataPath_ne_blockTmpPath (id id' : BlockId) : blockDataPath id ≠ blockTmpPath id' :=
  ne_blockTmpPath (filename_tmp_dataPath id) id'

/-- Two ids never share a file. -/
theorem disjoint_blockPaths {id id' : BlockId} (h : id ≠ id') : (blockPaths id).Disjoint (blockPaths id') := by
  intro path hpath hpath'
  simp only [blockPaths, List.mem_cons, List.not_mem_nil, or_false] at hpath hpath'
  rcases hpath with rfl | rfl | rfl
  · rcases hpath' with he | he | he
    · exact h (blockDataPath_inj he)
    · exact blockDataPath_ne_blockMetaPath _ _ he
    · exact blockDataPath_ne_blockTmpPath _ _ he
  · rcases hpath' with he | he | he
    · exact blockDataPath_ne_blockMetaPath _ _ he.symm
    · exact h (blockMetaPath_inj he)
    · exact blockMetaPath_ne_blockTmpPath _ _ he
  · rcases hpath' with he | he | he
    · exact blockDataPath_ne_blockTmpPath _ _ he.symm
    · exact blockMetaPath_ne_blockTmpPath _ _ he.symm
    · exact h (blockTmpPath_inj he)

theorem writeBlockUntil_true (h : (s.writeBlockUntil crc32 blockId data disk stop).1 = some true) :
    stop = .never ∧ disk.lets = true := by
  cases stop with
  | never => exact ⟨rfl, (BlockStore.writeBlock_fst crc32 s blockId data disk).symm.trans (Option.some.inj h)⟩
  | afterTmp =>
      cases htmp : disk.tmpOpens <;> simp [writeBlockUntil, writeTmp, htmp] at h
  | afterMeta =>
      cases htmp : disk.tmpOpens <;> cases hmeta : disk.metaOpens <;>
        simp [writeBlockUntil, writeTmp, writeMeta, htmp, hmeta] at h

theorem find_removeExisting {s' : BlockStore} {removes : Bool} (h : s.removeExisting path removes = some s')
    (path' : FilePath) : s'.files.find path' = if path' = path then none else s.files.find path' := by
  rw [removeExisting] at h
  split at h
  next =>
    split at h
    next =>
      obtain rfl := Option.some.inj h
      rw [remove, SortedMap.find_erase]
    next => cases h
  next hnone =>
    obtain rfl := Option.some.inj h
    split
    next he => rw [he, Option.not_isSome_iff_eq_none.mp hnone]
    next => rfl

theorem find_deleteBlock (h : (s.deleteBlock blockId dataRemoves metaRemoves).1 = some true) (path : FilePath) :
    (s.deleteBlock blockId dataRemoves metaRemoves).2.files.find path =
      if path = blockMetaPath blockId ∨ path = blockDataPath blockId then none else s.files.find path := by
  rw [deleteBlock] at h ⊢
  cases hdata : s.removeExisting (blockDataPath blockId) dataRemoves with
  | none => simp [hdata] at h
  | some s₁ =>
      simp only [hdata] at h ⊢
      cases hmeta : s₁.removeExisting (blockMetaPath blockId) metaRemoves with
      | none => simp [hmeta] at h
      | some s₂ =>
          simp only [find_removeExisting hmeta, find_removeExisting hdata]
          by_cases hm : path = blockMetaPath blockId
          · simp [hm]
          · simp [hm]

theorem filename_eq_some {dir : FilePath} (h : filename dir path = some name) : path = dir ++ name := by
  rw [filename] at h
  split at h
  next hdir =>
    obtain ⟨rest, rfl⟩ := List.isPrefixOf_iff_prefix.mp hdir.1
    rw [List.drop_left] at h
    rw [Option.some.inj h]
  next => cases h

theorem restarted_of_fst {r : Option Bool × BlockStore} {ok : Bool} (h : r.1 = some ok) : restarted r = r.2 := by
  obtain ⟨_, s⟩ := r
  cases h
  rfl

theorem Tracks.write (h : Tracks crc32 last s) (hlets : disk.lets = true)
    (hfits : (BlockMeta.ofData crc32 blockId data disk).Fits) :
    Tracks crc32 (Function.update last blockId (some (data, disk))) (s.writeBlock crc32 blockId data disk).2 := by
  refine ⟨?_, ?_, ?_⟩
  · intro id
    rw [find_metaPath_writeBlock s blockId data hlets]
    by_cases hid : id = blockId
    · rw [hid, if_pos rfl, Function.update_self, Option.map_some]
    · rw [if_neg hid, Function.update_of_ne hid, h.lines]
  · intro path hpath
    rw [find_writeBlock s blockId data hlets] at hpath
    by_cases hmem : path ∈ blockPaths blockId
    · exact ⟨blockId, hmem⟩
    · simp only [blockPaths, List.mem_cons, List.not_mem_nil, or_false, not_or] at hmem
      rw [if_neg hmem.1, if_neg hmem.2.2, if_neg hmem.2.1] at hpath
      exact h.names path hpath
  · intro id data' disk' hlast
    by_cases hid : id = blockId
    · rw [hid, Function.update_self] at hlast
      cases hlast
      exact hid ▸ hfits
    · rw [Function.update_of_ne hid] at hlast
      exact h.fits id data' disk' hlast

theorem Tracks.delete (h : Tracks crc32 last s)
    (hok : (s.deleteBlock blockId dataRemoves metaRemoves).1 = some true) :
    Tracks crc32 (Function.update last blockId none) (s.deleteBlock blockId dataRemoves metaRemoves).2 := by
  refine ⟨?_, ?_, ?_⟩
  · intro id
    rw [find_deleteBlock hok]
    by_cases hid : id = blockId
    · rw [hid, if_pos (.inl rfl), Function.update_self, Option.map_none]
    · have hne : ¬ (blockMetaPath id = blockMetaPath blockId ∨ blockMetaPath id = blockDataPath blockId) :=
        not_or.mpr ⟨fun he => hid (blockMetaPath_inj he), (blockDataPath_ne_blockMetaPath _ _).symm⟩
      rw [if_neg hne, Function.update_of_ne hid, h.lines]
  · intro path hpath
    rw [find_deleteBlock hok] at hpath
    split at hpath
    next => cases hpath
    next => exact h.names path hpath
  · intro id data' disk' hlast
    by_cases hid : id = blockId
    · rw [hid, Function.update_self] at hlast
      cases hlast
    · rw [Function.update_of_ne hid] at hlast
      exact h.fits id data' disk' hlast

theorem Tracks.step (h : Tracks crc32 last s) (hfits : c.Fits) (hok : (c.run crc32 s).1 = some true) :
    Tracks crc32 (c.update last) (restarted (c.run crc32 s)) := by
  rw [restarted_of_fst hok]
  cases c with
  | write blockId data disk stop =>
      obtain ⟨rfl, hlets⟩ := writeBlockUntil_true hok
      exact h.write hlets (BlockMeta.fits_ofData crc32 blockId hfits.1 hfits.2)
  | delete blockId dataRemoves metaRemoves => exact h.delete hok

theorem Tracks.runs (h : Tracks crc32 last s) (hfits : ∀ c ∈ calls, c.Fits) (hok : Succeed crc32 calls s) :
    Tracks crc32 (calls.foldl Call.update last) (s.runs crc32 calls) := by
  induction calls generalizing s last with
  | nil => exact h
  | cons c calls ih =>
      obtain ⟨hc, hcalls⟩ := List.forall_mem_cons.mp hfits
      exact ih (h.step hc hok.1) hcalls hok.2

namespace Tracks

theorem readMeta_eq (h : Tracks crc32 last s) (id : BlockId) : s.readMeta id =
    (last id).bind fun p => parseMeta (taken p.2.metaRoom (BlockMeta.ofData crc32 id p.1 p.2).line) := by
  rw [readMeta, h.lines, Option.bind_map]
  rfl

theorem describes (h : Tracks crc32 last s) {id : BlockId} {m : BlockMeta} (hm : s.readMeta id = some m) :
    ∃ data disk, last id = some (data, disk) ∧ m.blockId = id ∧ m.size = data.length ∧ m.crc32 = crc32 data := by
  rw [h.readMeta_eq] at hm
  obtain ⟨⟨data, disk⟩, hlast, hparse⟩ := Option.bind_eq_some_iff.mp hm
  exact ⟨data, disk, hlast, (parseMeta_taken _ (h.fits id data disk hlast)).2 m hparse⟩

/-- The only file whose name is listed with an id is the .meta file of the id. -/
theorem path_eq (h : Tracks crc32 last s) (hfile : (s.files.find path).isSome = true)
    (hname : filename (text "blocks/") path = some name) (hlisted : listedId name = some blockId) :
    path = blockMetaPath blockId := by
  obtain ⟨id, hid⟩ := h.names path hfile
  simp only [blockPaths, List.mem_cons, List.not_mem_nil, or_false] at hid
  rcases hid with rfl | rfl | rfl
  · obtain ⟨name', hname', hlisted'⟩ := filename_dataPath id
    obtain rfl := Option.some.inj (hname.symm.trans hname')
    cases hlisted.symm.trans hlisted'
  · obtain ⟨name', hname', hlisted'⟩ := listedId_metaPath id
    obtain rfl := Option.some.inj (hname.symm.trans hname')
    rw [Option.some.inj (hlisted.symm.trans hlisted')]
  · have htmp : filename (text "blocks/") (blockTmpPath id) = none := rfl
    cases htmp.symm.trans hname

theorem nodup_listAllBlocks (h : Tracks crc32 last s) (it : Iteration) :
    ((s.listAllBlocks it).map BlockMeta.blockId).Nodup := by
  have hnames : (s.files.entries.filterMap fun p => filename (text "blocks/") p.1).Nodup := by
    refine s.files.ascending.filterMap _ ?_
    intro p q hlt name hp name' hq he
    subst he
    exact absurd ((filename_eq_some hp).trans (filename_eq_some hq).symm) (ne_of_lt hlt)
  rw [List.Nodup, List.pairwise_map, listAllBlocks, List.pairwise_filterMap]
  refine ((it.perm _).nodup_iff.mpr hnames).imp_of_mem ?_
  intro name name' hmem hmem' hne m hm m' hm' he
  have hpath (name : Bytes) (m : BlockMeta)
      (hmem : name ∈ it.run (s.files.entries.filterMap fun p => filename (text "blocks/") p.1))
      (hm : (listedId name).bind s.readMeta = some m) :
      filename (text "blocks/") (blockMetaPath m.blockId) = some name := by
    obtain ⟨⟨path, bytes⟩, hentry, hname⟩ := List.mem_filterMap.mp (it.mem_run.mp hmem)
    obtain ⟨id, hlisted, hmeta⟩ := Option.bind_eq_some_iff.mp hm
    obtain ⟨data, disk, -, hid, -⟩ := h.describes hmeta
    have hfile : (s.files.find path).isSome = true := by
      rw [SortedMap.find_eq_some.mpr hentry]
      rfl
    rw [h.path_eq hfile hname hlisted, ← hid] at hname
    exact hname
  have hname := hpath name m hmem hm
  rw [he, hpath name' m' hmem' hm'] at hname
  exact hne (Option.some.inj hname).symm

/-- The list of the blocks is exact where every description got on disk up to its last number. -/
theorem exact_iff (h : Tracks crc32 last s) (it : Iteration) : Exact crc32 last (s.listAllBlocks it) ↔
    ∀ id data disk, last id = some (data, disk) →
      hasRoom disk.metaRoom ((BlockMeta.ofData crc32 id data disk).front.length + 1) = true := by
  constructor
  · intro hexact id data disk hlast
    obtain ⟨m, hm, hid⟩ := hexact.complete id data disk hlast
    obtain ⟨id', hmeta⟩ := mem_listAllBlocks.mp hm
    obtain ⟨-, -, -, hid', -⟩ := h.describes hmeta
    obtain rfl : id' = id := hid'.symm.trans hid
    rw [h.readMeta_eq, hlast, Option.bind_some] at hmeta
    rw [← (parseMeta_taken _ (h.fits id' data disk hlast)).1, hmeta]
    rfl
  · intro hroom
    refine ⟨h.nodup_listAllBlocks it, ?_, ?_⟩
    · intro m hm
      obtain ⟨id, hmeta⟩ := mem_listAllBlocks.mp hm
      obtain ⟨data, disk, hlast, hid, hsize, hcrc⟩ := h.describes hmeta
      exact ⟨data, disk, hid ▸ hlast, hsize, hcrc⟩
    · intro id data disk hlast
      have hsome := (parseMeta_taken disk.metaRoom (h.fits id data disk hlast)).1
      rw [hroom id data disk hlast] at hsome
      obtain ⟨m, hm⟩ := Option.isSome_iff_exists.mp hsome
      have hmeta : s.readMeta id = some m := by rw [h.readMeta_eq, hlast, Option.bind_some, hm]
      obtain ⟨-, -, -, hid, -⟩ := h.describes hmeta
      exact ⟨m, mem_listAllBlocks.mpr ⟨id, hmeta⟩, hid⟩

end Tracks

theorem tracks_empty : Tracks crc32 (fun _ => none) ⟨.empty⟩ :=
  ⟨fun _ => rfl, fun _ h => (by cases h), fun _ _ _ h => (by cases h)⟩

/-- After calls that all returned true, ListAllBlocks returns what was written last and not deleted, each block once,
exactly where the description of each such block got on disk up to its last number. Two ids never share a file, and the name
of a .meta file parses back to its id. -/
theorem list_exact_iff (crc32 : Bytes → UInt32) (calls : List Call) (it : Iteration) (hfits : ∀ c ∈ calls, c.Fits)
    (hok : Succeed crc32 calls ⟨.empty⟩) :
    (Exact crc32 (lastWrites calls) ((runs crc32 ⟨.empty⟩ calls).listAllBlocks it) ∧
        (∀ id id', id ≠ id' → (blockPaths id).Disjoint (blockPaths id')) ∧
        ∀ id, ∃ name, filename (text "blocks/") (blockMetaPath id) = some name ∧ listedId name = some id) ↔
      ∀ id data disk, lastWrites calls id = some (data, disk) →
        hasRoom disk.metaRoom ((BlockMeta.ofData crc32 id data disk).front.length + 1) = true := by
  have htracks : Tracks crc32 (lastWrites calls) (runs crc32 ⟨.empty⟩ calls) := tracks_empty.runs hfits hok
  rw [← htracks.exact_iff it]
  exact and_iff_left ⟨fun _ _ => disjoint_blockPaths, listedId_metaPath⟩

/-- A block is written and deleted, and another one is written twice. -/
theorem list_exact_iff_four :
    let calls := [Call.write 1 [1] {} .never, .write 7 [1] {} .never, .delete 1 true true, .write 7 [2] {} .never]
    Exact smallCrc (lastWrites calls) ((runs smallCrc ⟨.empty⟩ calls).listAllBlocks .sorted) := by
  intro calls
  refine ((list_exact_iff smallCrc calls .sorted ?_ ?_).mpr ?_).1
  · simp [calls, Call.Fits]
  · exact ⟨rfl, rfl, rfl, rfl, trivial⟩
  · intro id data disk hlast
    simp only [calls, lastWrites, List.foldl_cons, List.foldl_nil, Call.update, Function.update_apply] at hlast
    split at hlast
    next =>
      cases hlast
      rfl
    next => split at hlast <;> simp_all

/-- The disk is full when the .meta file is written. WriteBlock says true, and the block is not listed. -/
theorem list_lacks_block :
    let calls := [Call.write 1 [1] { metaRoom := some 0 } .never]
    Succeed smallCrc calls ⟨.empty⟩ ∧ (runs smallCrc ⟨.empty⟩ calls).listAllBlocks .sorted = [] ∧
      lastWrites calls 1 ≠ none ∧
      ¬ Exact smallCrc (lastWrites calls) ((runs smallCrc ⟨.empty⟩ calls).listAllBlocks .sorted) := by
  intro calls
  have hlist : (runs smallCrc ⟨.empty⟩ calls).listAllBlocks .sorted = [] := by decide +kernel
  refine ⟨⟨rfl, trivial⟩, hlist, nofun, ?_⟩
  rw [hlist]
  intro hexact
  obtain ⟨m, hm, -⟩ := hexact.complete 1 _ _ rfl
  cases hm

/-! Stores after calls of any outcome. -/

/-- A .meta file is about the id in its name. -/
def BlockStore.Keyed (s : BlockStore) : Prop := ∀ id m, s.readMeta id = some m → m.blockId = id

theorem find_deleteBlock_cases (s : BlockStore) (blockId : BlockId) (dataRemoves metaRemoves : Bool) (id : BlockId) :
    (restarted (s.deleteBlock blockId dataRemoves metaRemoves)).files.find (blockMetaPath id) = none ∨
      (restarted (s.deleteBlock blockId dataRemoves metaRemoves)).files.find (blockMetaPath id) =
        s.files.find (blockMetaPath id) := by
  rw [deleteBlock]
  cases hdata : s.removeExisting (blockDataPath blockId) dataRemoves with
  | none => exact .inr (find_cleanTempFiles (filename_tmp_metaPath id))
  | some s₁ =>
      have hfind := find_removeExisting hdata (blockMetaPath id)
      rw [if_neg (blockDataPath_ne_blockMetaPath _ _).symm] at hfind
      cases hmeta : s₁.removeExisting (blockMetaPath blockId) metaRemoves with
      | none =>
          simp only [hmeta, restarted, find_cleanTempFiles (filename_tmp_metaPath id)]
          exact .inr hfind
      | some s₂ =>
          simp only [hmeta, restarted, find_removeExisting hmeta]
          split
          next => exact .inl rfl
          next => exact .inr hfind

namespace BlockStore

theorem Keyed.step (h : s.Keyed) (hfits : c.Fits) : (restarted (c.run crc32 s)).Keyed := by
  intro id m hm
  cases c with
  | write blockId data disk stop =>
      have hline := BlockMeta.fits_ofData crc32 blockId hfits.1 hfits.2
      have hparse (room : Option Nat)
          (h : parseMeta (taken room (BlockMeta.ofData crc32 blockId data disk).line) = some m) : m.blockId = blockId :=
        ((parseMeta_taken room hline).2 m h).1
      by_cases hok : (s.writeBlockUntil crc32 blockId data disk stop).1 = some true
      · obtain ⟨rfl, hlets⟩ := writeBlockUntil_true hok
        change (s.writeBlock crc32 blockId data disk).2.readMeta id = some m at hm
        rw [readMeta_writeBlock s blockId data hlets] at hm
        split at hm
        next he =>
          rw [he]
          exact hparse _ hm
        next => exact h id m hm
      · change (restarted (s.writeBlockUntil crc32 blockId data disk stop)).readMeta id = some m at hm
        rw [readMeta_restarted hok] at hm
        split at hm
        next he =>
          rw [he.2]
          exact hparse _ hm
        next => exact h id m hm
  | delete blockId dataRemoves metaRemoves =>
      change (restarted (s.deleteBlock blockId dataRemoves metaRemoves)).readMeta id = some m at hm
      rw [readMeta] at hm
      rcases find_deleteBlock_cases s blockId dataRemoves metaRemoves id with hnone | hsame
      · rw [hnone] at hm
        cases hm
      · rw [hsame] at hm
        exact h id m hm

theorem keyed_runs (h : s.Keyed) (hfits : ∀ c ∈ calls, c.Fits) : (s.runs crc32 calls).Keyed := by
  induction calls generalizing s with
  | nil => exact h
  | cons c calls ih =>
      obtain ⟨hc, hcalls⟩ := List.forall_mem_cons.mp hfits
      exact ih (h.step hc) hcalls

/-- After any calls, crashes and failures among them, an id without files is nowhere to be found. -/
theorem absent_runs (hfits : ∀ c ∈ calls, c.Fits)
    (hfiles : ∀ path ∈ blockPaths blockId, (runs crc32 ⟨.empty⟩ calls).files.find path = none) :
    (runs crc32 ⟨.empty⟩ calls).Absent blockId := by
  have hkeyed : (runs crc32 ⟨.empty⟩ calls).Keyed := keyed_runs (fun _ _ h => by cases h) hfits
  have hmeta := hfiles (blockMetaPath blockId) (by simp [blockPaths])
  refine ⟨hmeta, hfiles (blockDataPath blockId) (by simp [blockPaths]), ?_⟩
  rintro it m hm rfl
  obtain ⟨id, hread⟩ := mem_listAllBlocks.mp hm
  rw [hkeyed id m hread] at hmeta
  rw [readMeta, hmeta] at hread
  cases hread

end BlockStore

end MiniStorage.Datanode
