import MiniStorage.Namenode.MetadataStore

namespace MiniStorage.Namenode

structure FileEntry where
  path : FilePath := []
  size : Int := 0
  createTime : Int := 0
  modifyTime : Int := 0
  blocks : List BlockId := []
deriving DecidableEq, Repr

structure BlockEntry where
  blockId : BlockId := 0
  size : Int := 0
  locations : List DataNodeId := []
deriving DecidableEq, Repr

structure MetadataStoreSnapshot where
  files : List FileEntry := []
  blocks : List BlockEntry := []
deriving DecidableEq, Repr

def FileEntry.info (fe : FileEntry) : FileInfo := ⟨fe.path, fe.size, fe.createTime, fe.modifyTime, fe.blocks⟩

def FileEntry.of (f : FileInfo) : FileEntry := ⟨f.path, f.size, f.createTime, f.modifyTime, f.blocks⟩

def BlockEntry.info (be : BlockEntry) : BlockInfo := ⟨be.blockId, be.size, be.locations⟩

def BlockEntry.of (block : BlockInfo) : BlockEntry := ⟨block.blockId, block.size, block.locations⟩

namespace MetadataStore

/-- The message that TakeMetadataSnapshot builds. -/
def snapshot (it : Iteration) (m : MetadataStore) : MetadataStoreSnapshot :=
  let files := m.listFiles it []
  { files := files.map FileEntry.of
    blocks := files.flatMap fun file => file.blocks.filterMap fun bid => (m.getBlock bid).map BlockEntry.of }

/-- What SerializeToString returns is not looked at. -/
def takeMetadataSnapshot (w : Wire MetadataStoreSnapshot) (it : Iteration) (m : MetadataStore) : Bytes :=
  (w.serialize (m.snapshot it)).getD []

def restoreBlocks (blocks : List BlockEntry) (m : MetadataStore) : MetadataStore :=
  blocks.foldl (fun m be => m.addBlock be.info) m

/-- `clock i` is the reading of NowMs for the call number `i`. -/
def restoreFiles (clock : Nat → Int) : Nat → List FileEntry → MetadataStore → MetadataStore
  | _, [], m => m
  | i, fe :: files, m =>
      let m := (m.deleteFile fe.path).2
      let m := (m.createFile fe.path (clock i)).2
      let m := (m.updateFile fe.path fe.info (clock (i + 1))).2
      restoreFiles clock (i + 2) files m

def restore (clock : Nat → Int) (snap : MetadataStoreSnapshot) (m : MetadataStore) : MetadataStore :=
  restoreFiles clock 0 snap.files (m.restoreBlocks snap.blocks)

def restoreMetadataSnapshot (w : Wire MetadataStoreSnapshot) (clock : Nat → Int) (data : Bytes) (m : MetadataStore) :
    Bool × MetadataStore :=
  match w.parse data with
  | none => (false, m)
  | some snap => (true, m.restore clock snap)

@[simp] theorem files_restoreBlocks (blocks : List BlockEntry) (m : MetadataStore) :
    (m.restoreBlocks blocks).files = m.files := by
  induction blocks generalizing m with
  | nil => rfl
  | cons be blocks ih => exact ih (m.addBlock be.info)

@[simp] theorem blocks_restoreFiles (clock : Nat → Int) (i : Nat) (files : List FileEntry) (m : MetadataStore) :
    (restoreFiles clock i files m).blocks = m.blocks := by
  induction files generalizing i m with
  | nil => rfl
  | cons fe files ih =>
      rw [restoreFiles, ih]
      simp

theorem find_restoreBlocks (blocks : List BlockEntry) (m : MetadataStore) (b : BlockId) :
    (∃ be ∈ blocks, be.blockId = b ∧ (m.restoreBlocks blocks).blocks.find b = some be.info) ∨
      (∀ be ∈ blocks, be.blockId ≠ b) ∧ (m.restoreBlocks blocks).blocks.find b = m.blocks.find b := by
  induction blocks generalizing m with
  | nil => exact .inr ⟨by simp, rfl⟩
  | cons be blocks ih =>
      have hcons : m.restoreBlocks (be :: blocks) = (m.addBlock be.info).restoreBlocks blocks := rfl
      rw [hcons]
      rcases ih (m.addBlock be.info) with ⟨last, hmem, hid, hf⟩ | ⟨hnone, hf⟩
      · exact .inl ⟨last, List.mem_cons_of_mem _ hmem, hid, hf⟩
      · rw [find_addBlock] at hf
        by_cases hb : b = be.blockId
        · exact .inl ⟨be, List.mem_cons_self, hb.symm, hf.trans (if_pos hb)⟩
        · refine .inr ⟨?_, hf.trans (if_neg hb)⟩
          intro other hmem
          rcases List.mem_cons.mp hmem with rfl | hmem
          · exact Ne.symm hb
          · exact hnone other hmem

theorem find_replaceFile (m : MetadataStore) (fe : FileEntry) (now now' : Int) (p : FilePath) :
    (((m.deleteFile fe.path).2.createFile fe.path now).2.updateFile fe.path fe.info now').2.files.find p =
      if p = fe.path then some { fe.info with modifyTime := now' } else m.files.find p := by
  by_cases hp : p = fe.path
  · simp [hp, find_updateFile, find_createFile, find_deleteFile]
  · simp [hp, find_updateFile, find_createFile, find_deleteFile]

theorem find_restoreFiles (clock : Nat → Int) (i : Nat) (files : List FileEntry) (m : MetadataStore) (p : FilePath) :
    (∃ (j : Nat) (fe : FileEntry), files[j]? = some fe ∧ fe.path = p ∧
      (restoreFiles clock i files m).files.find p = some { fe.info with modifyTime := clock (i + 2 * j + 1) }) ∨
      (∀ fe ∈ files, fe.path ≠ p) ∧ (restoreFiles clock i files m).files.find p = m.files.find p := by
  induction files generalizing i m with
  | nil => exact .inr ⟨by simp, rfl⟩
  | cons fe files ih =>
      rw [restoreFiles]
      rcases ih (i + 2) _ with ⟨j, last, hj, hp, hf⟩ | ⟨hnone, hf⟩
      · refine .inl ⟨j + 1, last, hj, hp, ?_⟩
        rw [hf, Nat.mul_succ, Nat.add_assoc i, Nat.add_comm 2]
      · rw [find_replaceFile] at hf
        by_cases hp : p = fe.path
        · exact .inl ⟨0, fe, rfl, hp.symm, by rw [hf, if_pos hp, Nat.mul_zero, Nat.add_zero]⟩
        · refine .inr ⟨?_, by rw [hf, if_neg hp]⟩
          intro other hmem
          rcases List.mem_cons.mp hmem with rfl | hmem
          · exact Ne.symm hp
          · exact hnone other hmem

section Exactness

/-- `r` holds the files of `s` and, of the blocks, those that `s` lists; it holds nothing that `s` lacks. -/
structure ExactCopy (s r : MetadataStore) : Prop where
  files : r.files = s.files
  blocks : ∀ b, s.Lists b → r.blocks.find b = s.blocks.find b
  noMore : ∀ b, s.blocks.find b = none → r.blocks.find b = none

variable {s t : MetadataStore} {it : Iteration} {clock : Nat → Int}

theorem snapshot_files_find (hs : s.Keyed) {j : Nat} {fe : FileEntry} (hj : (s.snapshot it).files[j]? = some fe) :
    ∃ f, (s.listFiles it [])[j]? = some f ∧ fe = FileEntry.of f ∧ s.files.find f.path = some f := by
  rw [snapshot, List.getElem?_map, Option.map_eq_some_iff] at hj
  obtain ⟨f, hf, rfl⟩ := hj
  obtain ⟨p, hp⟩ := s.mem_listFiles.mp (List.mem_of_getElem? hf)
  exact ⟨f, hf, rfl, (hs.files p f hp).symm ▸ hp⟩

theorem mem_snapshot_blocks {be : BlockEntry} :
    be ∈ (s.snapshot it).blocks ↔
      ∃ p f, s.files.find p = some f ∧ ∃ b ∈ f.blocks, ∃ info, s.blocks.find b = some info ∧
        be = BlockEntry.of info := by
  simp only [snapshot, List.mem_flatMap, mem_listFiles, List.mem_filterMap, Option.map_eq_some_iff, getBlock]
  constructor
  · rintro ⟨f, ⟨p, hp⟩, b, hb, info, hi, rfl⟩
    exact ⟨p, f, hp, b, hb, info, hi, rfl⟩
  · rintro ⟨p, f, hp, b, hb, info, hi, rfl⟩
    exact ⟨f, ⟨p, hp⟩, b, hb, info, hi, rfl⟩

/-- A listed block of the source is restored as it was, any other is left as the target has it. -/
theorem find_restore_blocks (hs : s.Keyed) (hlisted : ∀ b, s.Lists b → s.blocks.find b ≠ none) (b : BlockId) :
    (s.Lists b → (t.restore clock (s.snapshot it)).blocks.find b = s.blocks.find b) ∧
      (¬ s.Lists b → (t.restore clock (s.snapshot it)).blocks.find b = t.blocks.find b) := by
  rw [restore, blocks_restoreFiles]
  rcases find_restoreBlocks (s.snapshot it).blocks t b with ⟨be, hmem, hid, hf⟩ | ⟨hnone, hf⟩
  · obtain ⟨p, f, hp, b', hb', info, hi, rfl⟩ := mem_snapshot_blocks.mp hmem
    obtain rfl : b' = b := (hs.blocks b' info hi).symm.trans hid
    exact ⟨fun _ => hf.trans hi.symm, fun h => absurd ⟨p, f, hp, hb'⟩ h⟩
  · refine ⟨?_, fun _ => hf⟩
    intro hb
    obtain ⟨info, hi⟩ := Option.ne_none_iff_exists'.mp (hlisted b hb)
    obtain ⟨p, f, hp, hb⟩ := hb
    exact absurd (hs.blocks b info hi) (hnone _ (mem_snapshot_blocks.mpr ⟨p, f, hp, b, hb, info, hi, rfl⟩))

theorem find_restore_files (hs : s.Keyed) (p : FilePath) :
    (∃ j f, (s.listFiles it [])[j]? = some f ∧ s.files.find p = some f ∧
      (t.restore clock (s.snapshot it)).files.find p = some { f with modifyTime := clock (2 * j + 1) }) ∨
      s.files.find p = none ∧ (t.restore clock (s.snapshot it)).files.find p = t.files.find p := by
  rw [restore]
  rcases find_restoreFiles clock 0 (s.snapshot it).files (t.restoreBlocks (s.snapshot it).blocks) p with
    ⟨j, fe, hj, rfl, hf⟩ | ⟨hnone, hf⟩
  · obtain ⟨f, hl, rfl, hfind⟩ := snapshot_files_find hs hj
    exact .inl ⟨j, f, hl, hfind, by rw [hf, Nat.zero_add]; rfl⟩
  · refine .inr ⟨?_, by rw [hf, files_restoreBlocks]⟩
    cases hp : s.files.find p with
    | none => rfl
    | some f =>
        have hmem : FileEntry.of f ∈ (s.snapshot it).files := List.mem_map_of_mem (s.mem_listFiles.mpr ⟨p, hp⟩)
        exact absurd (hs.files p f hp) (hnone _ hmem)

theorem find_restore_listed (hs : s.Keyed) {j : Nat} {f : FileInfo} (hj : (s.listFiles it [])[j]? = some f) :
    s.files.find f.path = some f ∧
      (t.restore clock (s.snapshot it)).files.find f.path = some { f with modifyTime := clock (2 * j + 1) } := by
  obtain ⟨p, hp⟩ := s.mem_listFiles.mp (List.mem_of_getElem? hj)
  obtain rfl := hs.files p f hp
  refine ⟨hp, ?_⟩
  rcases @find_restore_files s t it clock hs f.path with ⟨j', f', hj', hp', hf⟩ | ⟨hnone, -⟩
  · obtain rfl := Option.some.inj (hp.symm.trans hp')
    have hlt := (List.getElem?_eq_some_iff.mp hj).1
    have hpath (i : Nat) (hi : (s.listFiles it [])[i]? = some f) :
        ((s.listFiles it []).map FileInfo.path)[i]? = some f.path := by rw [List.getElem?_map, hi]; rfl
    have hjj : j = j' := (List.getElem?_inj (by rwa [List.length_map]) (hs.nodup_listFiles it [])).mp
      ((hpath j hj).trans (hpath j' hj').symm)
    rw [hf, hjj]
  · rw [hp] at hnone
    cases hnone

/-- What a restore takes to be exact: the target has no path and no id of its own, and when the entry of
a file is written the clock stands at the file's modify_time. -/
structure Restorable (it : Iteration) (clock : Nat → Int) (s t : MetadataStore) : Prop where
  paths : ∀ p, t.files.find p ≠ none → s.files.find p ≠ none
  ids : ∀ b, t.blocks.find b ≠ none → s.blocks.find b ≠ none
  times : ∀ (j : Nat) (f : FileInfo), (s.listFiles it [])[j]? = some f → clock (2 * j + 1) = f.modifyTime

theorem files_restore_iff (hs : s.Keyed) :
    (t.restore clock (s.snapshot it)).files = s.files ↔
      (∀ p, t.files.find p ≠ none → s.files.find p ≠ none) ∧
        ∀ (j : Nat) (f : FileInfo), (s.listFiles it [])[j]? = some f → clock (2 * j + 1) = f.modifyTime := by
  constructor
  · intro h
    constructor
    · intro p ht hp
      rcases @find_restore_files s t it clock hs p with ⟨-, f, -, hf, -⟩ | ⟨-, hf⟩
      · rw [hp] at hf
        cases hf
      · rw [h, hp] at hf
        exact ht hf.symm
    · intro j f hj
      obtain ⟨hp, hf⟩ := @find_restore_listed s t it clock hs j f hj
      rw [h, hp] at hf
      exact (congrArg FileInfo.modifyTime (Option.some.inj hf)).symm
  · rintro ⟨hpaths, htimes⟩
    apply SortedMap.ext_find
    intro p
    rcases @find_restore_files s t it clock hs p with ⟨j, f, hj, hp, hf⟩ | ⟨hp, hf⟩
    · rw [hf, hp, htimes j f hj]
    · rw [hf, hp]
      by_contra ht
      exact hpaths p ht hp

/-- A snapshot that is restored over another state is an exact copy only where that state is part of it,
and only when no time has passed for any file. -/
theorem restore_snapshot_exact_iff (w : Wire MetadataStoreSnapshot) (it : Iteration) (clock : Nat → Int)
    (s t : MetadataStore) (hs : s.Keyed) (hlisted : ∀ b, s.Lists b → s.blocks.find b ≠ none)
    (hw : w.RoundTrips (s.snapshot it)) :
    s.ExactCopy (t.restoreMetadataSnapshot w clock (s.takeMetadataSnapshot w it)).2 ↔ Restorable it clock s t := by
  obtain ⟨data, hdata, hparse⟩ := hw
  have hr : (t.restoreMetadataSnapshot w clock (s.takeMetadataSnapshot w it)).2 = t.restore clock (s.snapshot it) := by
    rw [takeMetadataSnapshot, hdata, Option.getD_some, restoreMetadataSnapshot, hparse]
  rw [hr]
  have hblocks (b : BlockId) := @find_restore_blocks s t it clock hs hlisted b
  constructor
  · intro h
    obtain ⟨hpaths, htimes⟩ := (files_restore_iff hs).mp h.files
    refine ⟨hpaths, ?_, htimes⟩
    intro b ht hb
    exact ht (((hblocks b).2 fun hl => hlisted b hl hb).symm.trans (h.noMore b hb))
  · intro h
    refine ⟨(files_restore_iff hs).mpr ⟨h.paths, h.times⟩, fun b hb => (hblocks b).1 hb, ?_⟩
    intro b hb
    rw [(hblocks b).2 fun hl => hlisted b hl hb]
    by_contra ht
    exact h.ids b ht hb

/-- One file, written at 5 and changed at 7, with a block on one DataNode. -/
def oneFile : MetadataStore where
  files := SortedMap.empty.insert (text "/a") ⟨text "/a", 0, 5, 7, [1]⟩
  blocks := SortedMap.empty.insert 1 ⟨1, 0, [text "d"]⟩

def oneFileWire : Wire MetadataStoreSnapshot := .table [
  (⟨[⟨text "/a", 0, 5, 7, [1]⟩], [⟨1, 0, [text "d"]⟩]⟩,
    [0x0a, 0x0b, 0x0a, 0x02, 0x2f, 0x61, 0x18, 0x05, 0x20, 0x07, 0x2a, 0x01, 0x01,
      0x12, 0x05, 0x08, 0x01, 0x1a, 0x01, 0x64])]

theorem oneFile_keyed : oneFile.Keyed := by
  constructor
  · intro p f h
    rw [oneFile, SortedMap.find_insert] at h
    split at h
    next hp =>
      cases h
      exact hp.symm
    next => cases h
  · intro b info h
    rw [oneFile, SortedMap.find_insert] at h
    split at h
    next hb =>
      cases h
      exact hb.symm
    next => cases h

theorem oneFile_lists : ∀ b, oneFile.Lists b → oneFile.blocks.find b ≠ none := by
  rintro b ⟨p, f, hf, hb⟩
  rw [oneFile, SortedMap.find_insert] at hf
  split at hf
  · cases hf
    obtain rfl := List.mem_singleton.mp hb
    decide
  · cases hf

theorem restore_snapshot_exact_oneFile : oneFile.ExactCopy
    (MetadataStore.restoreMetadataSnapshot oneFileWire (fun _ => 7) (oneFile.takeMetadataSnapshot oneFileWire .sorted)
      {}).2 := by
  refine (restore_snapshot_exact_iff oneFileWire .sorted (fun _ => 7) oneFile {} oneFile_keyed oneFile_lists
    (Wire.roundTrips_table _ _)).mpr ⟨by simp, by simp, ?_⟩
  intro j f hj
  obtain ⟨p, hp⟩ := oneFile.mem_listFiles.mp (List.mem_of_getElem? hj)
  rw [oneFile, SortedMap.find_insert] at hp
  split at hp
  · cases hp
    rfl
  · cases hp

/-- An empty snapshot takes nothing away. -/
theorem restore_snapshot_keeps_old_file :
    (Wire.table [(({} : MetadataStoreSnapshot), [])]).RoundTrips (MetadataStore.snapshot .sorted {}) ∧
      ¬ ExactCopy {} (oneFile.restoreMetadataSnapshot (.table [({}, [])]) (fun _ => 9)
        (MetadataStore.takeMetadataSnapshot (.table [({}, [])]) .sorted {})).2 := by
  refine ⟨Wire.roundTrips_table _ _, ?_⟩
  intro h
  have hfile := congrArg (fun m : SortedMap FilePath FileInfo => m.find (text "/a")) h.files
  revert hfile
  decide

end Exactness

end MetadataStore

end MiniStorage.Namenode
